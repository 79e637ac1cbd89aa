import ContentModel.Proofs.Automaton.Asked
import ContentModel.Proofs.Automaton.History
import ContentModel.Proofs.Automaton.Ownership

/-!
# The number of nodes a construction may make

A construction makes one node for each key that is met and needs one of its
own. It ends well exactly if these are no more than the store allows, and else
it takes back what it made, though it goes over the limit before it stops. Main
statement: `determinize_budget`.
-/

namespace ContentModel.Automaton

universe u

variable {κ : Type u}

/-- The keys that need a node of their own. -/
def ownKeys (spec : κ → SubsetStep κ) (start : κ) : Set κ :=
  {key | Met spec start key ∧ (spec key).IsExpand}

namespace Store

variable {base after : Store}

/-! ## Nodes that come into use -/

/-- The nodes that came into use, but for the shared ones. -/
def newNodes (base after : Store) : Set Nat :=
  {id | after.Live id ∧ ¬ base.Live id ∧ after.isShared id = false}

/-- A shared node that there was not, and that a key asks for. -/
def Requested (base : Store) (spec : κ → SubsetStep κ) (start : κ)
    (after : Store) (id : Nat) : Prop :=
  (base.sharedAny = none ∧ after.sharedAny = some id ∧
    ∃ key, Met spec start key ∧ spec key = .any) ∨
  (base.sharedEmpty = none ∧ after.sharedEmpty = some id ∧
    ∃ key, Met spec start key ∧ spec key = .empty)

/-- The same nodes are in use, and they are the same. -/
def SameNodes (base after : Store) : Prop :=
  Keeps base after ∧ ∀ id, after.Live id ↔ base.Live id

theorem Grown.newNodes_eq {created : List Nat}
    (grown : base.Grown created after) :
    base.newNodes after = {id | id ∈ created} := by
  ext id
  constructor
  · rintro ⟨live, isNew, notShared⟩
    rcases grown.live id live with wasLive | isCreated | isShared
    · exact absurd wasLive isNew
    · exact isCreated
    · rw [notShared] at isShared
      cases isShared
  · intro isCreated
    obtain ⟨node, found, _⟩ := grown.ordinary id isCreated
    exact ⟨⟨node, found⟩, grown.isNew id isCreated,
      grown.notShared isCreated⟩

/-- Where nothing was added and no further node is shared, the nodes are the
same. -/
theorem Grown.sameNodes (sound : base.Sound) (grown : base.Grown [] after)
    (sharedBefore : ∀ id, after.isShared id = true →
      base.isShared id = true) : base.SameNodes after := by
  refine ⟨grown.keeps, fun id => ?_⟩
  rw [grown.live_iff sound sharedBefore, or_iff_left List.not_mem_nil]

/-- A shared node was in use or is one that a key asks for. -/
theorem Grown.live_or_requested {created : List Nat} (sound : base.Sound)
    (grown : base.Grown created after) {spec : κ → SubsetStep κ} {start : κ}
    (asked : Asked base spec start after) {id : Nat}
    (shared : after.isShared id = true) :
    base.Live id ∨ Requested base spec start after id := by
  cases (isShared_iff after id).mp shared with
  | inl isAny =>
      cases earlier : base.sharedAny with
      | none =>
          have asks := (asked.any id isAny).resolve_left (by simp [earlier])
          exact Or.inr (Or.inl ⟨earlier, isAny, asks⟩)
      | some other =>
          have stays := grown.keeps.sharedAny sound grown.sound earlier
          rw [isAny] at stays
          cases stays
          exact Or.inl (sound.anyLive id earlier)
  | inr isEmpty =>
      cases earlier : base.sharedEmpty with
      | none =>
          have asks := (asked.empty id isEmpty).resolve_left
            (by simp [earlier])
          exact Or.inr (Or.inr ⟨earlier, isEmpty, asks⟩)
      | some other =>
          have stays := grown.keeps.sharedEmpty sound grown.sound earlier
          rw [isEmpty] at stays
          cases stays
          exact Or.inl (sound.emptyLive id earlier)

/-! ## Constructions on keys -/

/-- What a construction makes of a store that allows a number of nodes. -/
structure Accounted (base : Store) (spec : κ → SubsetStep κ) (start : κ)
    (result : Except StateLimitExceeded Nat) (after : Store) : Prop where
  keeps : ∀ id node, base.node id = .ok node → after.node id = .ok node
  fits_iff : (∃ root, result = .ok root) ↔
    (ownKeys spec start).encard ≤ base.stateLimit
  made : ∀ root, result = .ok root →
    (base.newNodes after).encard = (ownKeys spec start).encard
  takenBack : ∀ failure, result = .error failure →
    failure = ⟨base.stateLimit⟩ ∧ base.newNodes after = ∅
  requested : ∀ id, after.Live id → after.isShared id = true →
    base.Live id ∨ Requested base spec start after id

theorem accounted_of_follows [Ord κ] [Std.TransOrd κ] [Std.LawfulEqOrd κ]
    (sound : base.Sound) {spec : κ → SubsetStep κ} {start : κ}
    {step : Store → κ → Except Fault (SubsetStep κ)}
    (follows : ∀ store, Keeps base store → ∀ key, Met spec start key →
      step store key = .ok (spec key)) :
    ∃ result after, base.determinize start step = .ok (result, after) ∧
      Accounted base spec start result after := by
  rcases determinize_outcome sound follows with
    ⟨keys, nodeOf, after, isResult, few, built⟩ |
      ⟨keys, after, isResult, many, nodup, isOwn, grown⟩
  · have asked := asked_of_determinize sound follows isResult
    have allOwn : ownKeys spec start = {key | key ∈ keys} := by
      ext key
      exact (built.mem_keys_iff key).symm
    refine ⟨_, after, isResult, built.grown.keeps, ?_, ?_, ?_, ?_⟩
    · rw [allOwn, encard_mem_list built.keysNodup]
      exact iff_of_true ⟨_, rfl⟩ (by exact_mod_cast few)
    · intro root _
      rw [built.grown.newNodes_eq, allOwn,
        encard_mem_list built.grown.nodup, encard_mem_list built.keysNodup,
        List.length_map]
    · intro failure impossible
      cases impossible
    · intro id _ shared
      exact built.grown.live_or_requested sound asked shared
  · have asked := asked_of_determinize sound follows isResult
    have tooMany : (base.stateLimit : ℕ∞) < (ownKeys spec start).encard := by
      refine lt_of_lt_of_le ?_ (Set.encard_le_encard
        (s := {key | key ∈ keys}) isOwn)
      rw [encard_mem_list nodup]
      exact_mod_cast many
    refine ⟨_, after, isResult, grown.keeps, ?_, ?_, ?_, ?_⟩
    · apply iff_of_false
      · rintro ⟨root, impossible⟩
        cases impossible
      · exact not_le_of_gt tooMany
    · intro root impossible
      cases impossible
    · intro failure isFailure
      cases isFailure
      refine ⟨rfl, ?_⟩
      rw [grown.newNodes_eq]
      exact Set.eq_empty_of_forall_notMem fun _ => List.not_mem_nil
    · intro id _ shared
      exact grown.live_or_requested sound asked shared

/-! ## Compilations -/

theorem sameNodes_compile {failure : StateLimitExceeded}
    {graph : FragmentGraph} {fragment : Fragment}
    (sound : base.Sound)
    (isResult : base.compile graph fragment = .ok (.error failure, after)) :
    failure = ⟨base.stateLimit⟩ ∧ base.SameNodes after := by
  rw [compile, bind_eq_ok_iff] at isResult
  obtain ⟨start, _, isResult⟩ := isResult
  cases grown_of_determinize sound isResult with
  | inl succeeds =>
      obtain ⟨⟨root, impossible⟩, _⟩ := succeeds
      cases impossible
  | inr givesUp =>
      obtain ⟨isFailure, grown⟩ := givesUp
      cases isFailure
      refine ⟨rfl, grown.sameNodes sound ?_⟩
      intro id shared
      apply isShared_of_determinize _ isResult shared
      intro store set answer isStep
      exact isExpand_of_setStep isStep

theorem sameNodes_compileModel {failure : StateLimitExceeded}
    {model : Model} (sound : base.Sound)
    (isResult : base.compileModel model = .ok (.error failure, after)) :
    failure = ⟨base.stateLimit⟩ ∧ base.SameNodes after := by
  rw [compileModel_eq, bind_eq_ok_iff] at isResult
  obtain ⟨⟨fragment, graph⟩, _, isResult⟩ := isResult
  exact sameNodes_compile sound isResult

/-! ## Unions -/

/-- At least one node, and what is reached from them is in use. -/
structure Whole (store : Store) (set : List Nat) : Prop where
  nonempty : set ≠ []
  intact : ∀ id ∈ set, store.Intact id

theorem Intact.next {store : Store} {id next : Nat}
    (intact : store.Intact id) (step : store.Step id next) :
    store.Intact next :=
  fun _ reaches => intact _ (Relation.ReflTransGen.head step reaches)

theorem Whole.joins {store : Store} {set : List Nat}
    (whole : store.Whole set) : store.Joins set where
  nonempty := whole.nonempty
  safe id member := (whole.intact id member).safe

/-- A set leads to sets of targets of its members. -/
theorem Whole.next {store : Store} {set : List Nat} (whole : store.Whole set)
    {accepting : Bool} {edges : List (Atom × List Nat)}
    (isStep : store.unionSpec set = .expand accepting edges)
    {edge : Atom × List Nat} (member : edge ∈ edges) :
    store.Whole edge.2 := by
  rcases unionSpec_cases whole.joins with
    ⟨isAny, _⟩ | ⟨isEmpty, _⟩ | ⟨tally, isExpand, _, tallies⟩
  · rw [isAny] at isStep
    cases isStep
  · rw [isEmpty] at isStep
    cases isStep
  · rw [isExpand] at isStep
    cases isStep
    have isNext : (successorSets tally).find? edge.1.name = some edge.2 :=
      (AtomMap.find?_eq_some_iff ..).mpr ⟨edge.1, member, rfl⟩
    obtain ⟨found, isFound⟩ :=
      (exists_successorSet_iff tally edge.1.name).mp ⟨_, isNext⟩
    constructor
    · have noneBlank := tallies.noneBlank (by
        intro name found impossible
        cases impossible)
      obtain ⟨id, isMember⟩ :=
        List.exists_mem_of_ne_nil found (noneBlank _ found isFound)
      exact List.ne_nil_of_mem
        ((mem_successorSets_iff isNext id).mpr ⟨found, isFound, isMember⟩)
    · intro next isMember
      have leads := (mem_successorSets_iff isNext next).mp isMember
      have noneBefore :
          ¬ UnionTally.Leads (∅ : AtomMap (List Nat)) edge.1.name next := by
        rintro ⟨found, impossible, _⟩
        cases impossible
      rw [tallies.leads_iff, or_iff_right noneBefore] at leads
      obtain ⟨id, inSet, node, isNode, isTarget⟩ := leads
      exact (whole.intact id inSet).next
        ⟨node, isNode, (node.transitions.mem_values_iff next).mpr
          ⟨_, isTarget⟩⟩

theorem Whole.of_met {store : Store} {start set : List Nat}
    (whole : store.Whole start) (met : Met store.unionSpec start set) :
    store.Whole set :=
  met.invariant whole fun _ _ _ whole isStep _ member =>
    whole.next isStep member

theorem whole_pair {store : Store} {left right : Nat}
    (leftIntact : store.Intact left) (rightIntact : store.Intact right) :
    store.Whole (pair left right) where
  nonempty := List.ne_nil_of_mem ((mem_pair_iff ..).mpr (Or.inl rfl))
  intact id member := by
    rcases (mem_pair_iff left right id).mp member with rfl | rfl
    · exact leftIntact
    · exact rightIntact

/-- A union asks for a shared node only where there is one already. -/
theorem Whole.not_requested {start : List Nat} (sound : base.Sound)
    (whole : base.Whole start) {id : Nat} :
    ¬ Requested base base.unionSpec start after id := by
  rintro (⟨missing, _, set, met, isAny⟩ | ⟨missing, _, set, met, isEmpty⟩)
  · rcases unionSpec_cases (whole.of_met met).joins with
      ⟨_, other, _, node, found, nodeAny⟩ | ⟨isEmpty, _⟩ |
        ⟨tally, isExpand, _⟩
    · rw [(sound.any_iff other node found).mp nodeAny] at missing
      cases missing
    · rw [isAny] at isEmpty
      cases isEmpty
    · rw [isAny] at isExpand
      cases isExpand
  · have setWhole := whole.of_met met
    rcases unionSpec_cases setWhole.joins with
      ⟨isAny, _⟩ | ⟨_, allEmpty⟩ | ⟨tally, isExpand, _⟩
    · rw [isEmpty] at isAny
      cases isAny
    · obtain ⟨other, member⟩ :=
        List.exists_mem_of_ne_nil set setWhole.nonempty
      obtain ⟨node, found, nodeEmpty⟩ := allEmpty other member
      rw [(sound.empty_iff other node found).mp nodeEmpty] at missing
      cases missing
    · rw [isEmpty] at isExpand
      cases isExpand

/-- The union of two nodes from which only nodes in use are reached comes to an
end, and leaves the nodes in use as they are if it gives up. -/
theorem sameNodes_merge {left right : Nat} (sound : base.Sound)
    (leftIntact : base.Intact left) (rightIntact : base.Intact right) :
    ∃ result after, base.merge left right = .ok (result, after) ∧
      ∀ failure, result = .error failure →
        failure = ⟨base.stateLimit⟩ ∧ base.SameNodes after := by
  by_cases same : left = right
  · refine ⟨.ok left, base, by rw [merge, if_pos same], ?_⟩
    intro failure impossible
    cases impossible
  · have whole := whole_pair leftIntact rightIntact
    have follows : ∀ store, Keeps base store →
        ∀ set, Met base.unionSpec (pair left right) set →
          store.unionStep {} set = .ok (base.unionSpec set) :=
      fun _ keeps _ met =>
        unionStep_of_keeps keeps (whole.of_met met).joins.live
    rw [merge_eq_determinize base same]
    obtain ⟨result, after, isResult, accounted⟩ :=
      accounted_of_follows sound follows
    refine ⟨result, after, isResult, ?_⟩
    intro failure isFailure
    obtain ⟨isLimit, noneNew⟩ := accounted.takenBack failure isFailure
    refine ⟨isLimit, accounted.keeps, fun id => ⟨?_, ?_⟩⟩
    · intro live
      by_contra isNew
      have notShared : after.isShared id = false := by
        rw [← Bool.not_eq_true]
        intro shared
        exact (accounted.requested id live shared).elim isNew
          (whole.not_requested sound)
      exact Set.eq_empty_iff_forall_notMem.mp noneNew id
        ⟨live, isNew, notShared⟩
    · exact Keeps.live accounted.keeps

/-! ## The limit -/

/-- A construction on keys always comes to an end. It ends well exactly if no
more keys need a node of their own than the store allows, and then as many
nodes came into use, besides shared ones. If it gives up, only shared nodes did
that a key asks for. A compilation or a union that gives up leaves the nodes in
use as they were. -/
theorem determinize_budget [Ord κ] [Std.TransOrd κ] [Std.LawfulEqOrd κ]
    (reached : base.Reached) (spec : κ → SubsetStep κ) (start : κ) :
    (∃ result after,
      base.determinize start (fun _ key => .ok (spec key)) =
        .ok (result, after) ∧
      Accounted base spec start result after) ∧
    (∀ graph fragment failure after,
      base.compile graph fragment = .ok (.error failure, after) →
      failure = ⟨base.stateLimit⟩ ∧ base.SameNodes after) ∧
    (∀ model failure after,
      base.compileModel model = .ok (.error failure, after) →
      failure = ⟨base.stateLimit⟩ ∧ base.SameNodes after) ∧
    (∀ left right, base.Intact left → base.Intact right →
      ∃ result after, base.merge left right = .ok (result, after) ∧
        ∀ failure, result = .error failure →
          failure = ⟨base.stateLimit⟩ ∧ base.SameNodes after) := by
  have sound := reached.sound
  refine ⟨accounted_of_follows sound fun _ _ _ _ => rfl, ?_, ?_, ?_⟩
  · intro graph fragment failure after isResult
    exact sameNodes_compile sound isResult
  · intro model failure after isResult
    exact sameNodes_compileModel sound isResult
  · intro left right leftIntact rightIntact
    exact sameNodes_merge sound leftIntact rightIntact

/-- The loop beside the empty word, where a construction may make one node:
endlessly many keys, a model with two states and the union of the two nodes are
each too much. -/
theorem determinize_budget_one :
    ∃ base : Store, base.Reached ∧ base.Intact 0 ∧ base.Intact 1 ∧
      (∃ after,
        base.determinize 0 (fun _ key =>
          .ok (.expand true [(.ofElement "a", key + 1)])) =
            .ok (.error ⟨1⟩, after) ∧
        Accounted base
          (fun key => .expand true [(.ofElement "a", key + 1)]) 0
          (.error ⟨1⟩) after) ∧
      (∃ after, base.compileModel (.leaf (.ofElement "a")) =
          .ok (.error ⟨1⟩, after) ∧ base.SameNodes after) ∧
      ∃ after, base.merge 0 1 = .ok (.error ⟨1⟩, after) ∧
        base.SameNodes after := by
  have looped : (alloc {}).2.setTransition 0 (.ofElement "a") 0 =
      .ok (none, _) := rfl
  have reached : Reached { loopBesideEmpty with stateLimit := 1 } :=
    .setStateLimit 1 (Reached.new.alloc.setTransition looped).emptyNode
  have loopIntact : Intact _ 0 := reached.intact rfl (by decide)
  have emptyIntact : Intact _ 1 := reached.intact rfl (by decide)
  obtain ⟨⟨counting, after, isResult, accounted⟩, _, compiled, merged⟩ :=
    determinize_budget reached
      (fun key => .expand true [(.ofElement "a", key + 1)]) 0
  have isFailure : counting = .error ⟨1⟩ := by
    cases isResult
    rfl
  subst isFailure
  obtain ⟨union, last, isUnion, takenBack⟩ :=
    merged 0 1 loopIntact emptyIntact
  have isRefused : union = .error ⟨1⟩ := by
    cases isUnion
    rfl
  subst isRefused
  exact ⟨_, reached, loopIntact, emptyIntact, ⟨after, isResult, accounted⟩,
    ⟨_, rfl, (compiled (.leaf (.ofElement "a")) ⟨1⟩ _ rfl).2⟩,
    last, isUnion, (takenBack _ rfl).2⟩

end Store

end ContentModel.Automaton
