import ContentModel.Proofs.Automaton.Store
import ContentModel.Proofs.Search

/-!
# Releasing an automaton

The nodes that a release frees are those that can be reached without entering
a shared node. Each of them is in use and is freed once.
-/

namespace ContentModel.Automaton.Store

variable {store : Store}

/-! ## Putting away several nodes -/

/-- Nodes in use that are put away are no longer in use, and the others
stay. -/
theorem recycleAll_spec {ids : List Nat} (sound : store.Sound)
    (nodup : ids.Nodup) (live : ∀ id ∈ ids, store.Live id) :
    (ids.foldl Store.recycle store).Sound ∧
      (∀ id ∈ ids, ¬ (ids.foldl Store.recycle store).Live id) ∧
      ∀ id, id ∉ ids →
        (ids.foldl Store.recycle store).node id = store.node id := by
  induction ids generalizing store with
  | nil =>
      refine ⟨sound, ?_, fun _ _ => rfl⟩
      intro id member
      exact absurd member List.not_mem_nil
  | cons first rest inductionHypothesis =>
      obtain ⟨notLater, restNodup⟩ := List.nodup_cons.mp nodup
      have firstLive := live first List.mem_cons_self
      have restLive : ∀ id ∈ rest, (store.recycle first).Live id := by
        intro id member
        rw [live_recycle_iff firstLive]
        refine ⟨?_, live id (List.mem_cons_of_mem first member)⟩
        rintro rfl
        exact notLater member
      obtain ⟨isSound, freed, kept⟩ :=
        inductionHypothesis (sound.recycle firstLive) restNodup restLive
      refine ⟨isSound, ?_, ?_⟩
      · intro id member
        rcases List.mem_cons.mp member with rfl | later
        · have stays := kept id notLater
          rintro ⟨node, found⟩
          rw [List.foldl_cons, stays, node_recycle firstLive,
            if_pos rfl] at found
          cases found
        · exact freed id later
      · intro id notMember
        rw [List.mem_cons, not_or] at notMember
        rw [List.foldl_cons, kept id notMember.2, node_recycle firstLive,
          if_neg notMember.1]

/-! ## The owned nodes -/

/-- Where a release goes on from a node. -/
def ownedTargets (store : Store) (id : Nat) : Except Fault (List Nat) :=
  if store.isShared id then return []
  else return (← store.node id).targets.reverse

/-- The nodes that can be reached without entering a shared node, and the
shared nodes where they are met. -/
def Owns (store : Store) (start id : Nat) : Prop :=
  Search.Reachable store.ownedTargets [start] id

theorem owned_eq (store : Store) (start : Nat) :
    store.owned start = do
      let visited ← Search.depthFirst (store.slots.size + 1)
        store.ownedTargets [start]
      return visited.ascending.filter fun id => !store.isShared id :=
  rfl

theorem answers_ownedTargets_iff (sound : store.Sound) (id : Nat) :
    Search.Answers store.ownedTargets id ↔ store.Live id := by
  rw [Search.Answers, ownedTargets]
  by_cases isShared : store.isShared id = true
  · have isLive : store.Live id := by
      simp only [Store.isShared, Bool.or_eq_true, beq_iff_eq] at isShared
      exact isShared.elim (sound.anyLive id) (sound.emptyLive id)
    rw [if_pos isShared]
    exact iff_of_true ⟨[], rfl⟩ isLive
  · rw [if_neg isShared, Live]
    cases store.node id with
    | error fault =>
        refine iff_of_false ?_ ?_
        · rintro ⟨found, impossible⟩
          cases impossible
        · rintro ⟨node, impossible⟩
          cases impossible
    | ok node =>
        exact iff_of_true ⟨_, rfl⟩ ⟨node, rfl⟩

/-- The search of a release meets all owned nodes, or comes by one that is not
in use. -/
theorem ends_owned (sound : store.Sound) (start : Nat) :
    Search.Ends store.ownedTargets [start]
      (Search.depthFirst (store.slots.size + 1) store.ownedTargets
        [start]) := by
  have bounded : ∀ id, store.Owns start id →
      Search.Answers store.ownedTargets id →
      id ∈ List.range store.slots.size := by
    intro id _ answers
    rw [answers_ownedTargets_iff sound] at answers
    exact List.mem_range.mpr answers.lt_size
  have enough :
      (List.range store.slots.size).length ≤ store.slots.size + 1 := by
    simp
  exact Search.ends_depthFirst bounded enough

theorem owned_ascending {start : Nat} {owned : List Nat}
    (isOwned : store.owned start = .ok owned) : owned.Pairwise (· < ·) := by
  rw [owned_eq, bind_eq_ok_iff] at isOwned
  obtain ⟨visited, _, same⟩ := isOwned
  cases same
  exact (Search.ascending_pairwise visited).filter _

/-- The owned nodes are listed once each, and are in use. -/
theorem owned_spec (sound : store.Sound) {start : Nat} {owned : List Nat}
    (isOwned : store.owned start = .ok owned) :
    owned.Nodup ∧
      (∀ id, id ∈ owned ↔ store.Owns start id ∧ store.isShared id = false) ∧
      ∀ id, store.Owns start id → store.Live id := by
  have nodup : owned.Nodup := (owned_ascending isOwned).imp Nat.ne_of_lt
  have ends := ends_owned sound start
  rw [owned_eq, bind_eq_ok_iff] at isOwned
  obtain ⟨visited, isVisited, same⟩ := isOwned
  rw [isVisited] at ends
  cases same
  refine ⟨nodup, ?_, ?_⟩
  · intro id
    rw [List.mem_filter, ends.mem_ascending_iff, Bool.not_eq_true']
    exact Iff.rfl
  · intro id owns
    exact (answers_ownedTargets_iff sound id).mp (ends.answers id owns)

theorem exists_owned (sound : store.Sound) {start : Nat}
    (live : ∀ id, store.Owns start id → store.Live id) :
    ∃ owned, store.owned start = .ok owned := by
  have ends := ends_owned sound start
  cases result : Search.depthFirst (store.slots.size + 1)
      store.ownedTargets [start] with
  | ok visited =>
      rw [owned_eq, result]
      exact ⟨_, rfl⟩
  | error fault =>
      rw [result] at ends
      obtain ⟨id, owns, fails⟩ := ends
      obtain ⟨found, isFound⟩ :=
        (answers_ownedTargets_iff sound id).mpr (live id owns)
      rw [fails] at isFound
      cases isFound

theorem exists_owned_of_release {after : Store} {start count : Nat}
    (result : store.release start = .ok (count, after)) :
    ∃ owned, store.owned start = .ok owned ∧ count = owned.length ∧
      after = owned.foldl Store.recycle store := by
  rw [release, bind_eq_ok_iff] at result
  obtain ⟨owned, isOwned, same⟩ := result
  cases same
  exact ⟨owned, isOwned, rfl, rfl⟩

/-- A release frees the owned nodes and leaves the others as they are. -/
theorem release_spec {after : Store} (sound : store.Sound) {start count : Nat}
    (result : store.release start = .ok (count, after)) :
    after.Sound ∧
      (∀ id, after.Live id ↔ store.Live id ∧
        ¬ (store.Owns start id ∧ store.isShared id = false)) ∧
      ∀ id node, store.node id = .ok node →
        ¬ (store.Owns start id ∧ store.isShared id = false) →
        after.node id = .ok node := by
  obtain ⟨owned, isOwned, _, same⟩ := exists_owned_of_release result
  rw [same]
  obtain ⟨nodup, mem_iff, live⟩ := owned_spec sound isOwned
  obtain ⟨isSound, freed, kept⟩ := recycleAll_spec sound nodup
    fun id member => live id ((mem_iff id).mp member).1
  refine ⟨isSound, ?_, ?_⟩
  · intro id
    rw [← mem_iff id]
    by_cases member : id ∈ owned
    · exact iff_of_false (freed id member) fun stays => stays.2 member
    · rw [Live, kept id member]
      exact ⟨fun isLive => ⟨isLive, member⟩, And.left⟩
  · intro id node found notOwned
    rw [← mem_iff id] at notOwned
    rw [kept id notOwned]
    exact found

theorem stateLimit_release {start count : Nat} {after : Store}
    (result : store.release start = .ok (count, after)) :
    after.stateLimit = store.stateLimit := by
  rw [release, bind_eq_ok_iff] at result
  obtain ⟨owned, _, same⟩ := result
  cases same
  exact List.foldlRecOn
    (motive := fun after : Store => after.stateLimit = store.stateLimit)
    owned recycle rfl fun _ holds _ _ => holds

end ContentModel.Automaton.Store
