import ContentModel.Proofs.Automaton.Ownership
import ContentModel.Proofs.Automaton.Refusals

/-!
# What a release frees

A release first finds the nodes that its start has for itself and then frees
one after the other. Main statement: in a store that operations made it frees
all of them, the last in order first to be handed out again, or none of them
where one is not in use (`Reached.release_part`).
-/

namespace ContentModel.Automaton.Store

variable {store after : Store} {start id : Nat}

/-! ## The nodes that a start has for itself -/

/-- Steps lead to the node from the start, and neither they nor the start
enter a shared node. -/
inductive Part (store : Store) (start : Nat) : Nat → Prop
  | start : store.isShared start = false → Part store start start
  | step {id next : Nat} : Part store start id → store.Step id next →
      store.isShared next = false → Part store start next

/-- The nodes that a start has for itself. -/
def part (store : Store) (start : Nat) : Set Nat :=
  {id | store.Part start id}

theorem Part.notShared (inPart : store.Part start id) :
    store.isShared id = false := by
  cases inPart with
  | start notShared => exact notShared
  | step _ _ notShared => exact notShared

theorem Part.owns (inPart : store.Part start id) : store.Owns start id := by
  induction inPart with
  | start _ =>
      exact Search.reachable_start (List.mem_singleton_self start)
  | @step id next earlier step _ inductionHypothesis =>
      obtain ⟨node, found, isTarget⟩ := step
      have answer : store.ownedTargets id = .ok node.targets.reverse := by
        rw [ownedTargets, if_neg (Bool.eq_false_iff.mp earlier.notShared),
          found]
        rfl
      exact inductionHypothesis.next answer (List.mem_reverse.mpr isTarget)

/-- A search that does not go on from shared nodes meets these nodes and the
shared ones to which they lead. -/
theorem part_iff_owns :
    store.Part start id ↔
      store.Owns start id ∧ store.isShared id = false := by
  constructor
  · intro inPart
    exact ⟨inPart.owns, inPart.notShared⟩
  · intro owned
    obtain ⟨owns, notShared⟩ := owned
    revert notShared
    refine owns.invariant
      (motive := fun id => store.isShared id = false → store.Part start id)
      ?_ ?_
    · intro id isStart notShared
      rw [List.mem_singleton.mp isStart] at notShared ⊢
      exact Part.start notShared
    · intro id found inPart answer next isNext notShared
      rw [ownedTargets] at answer
      -- Nothing comes after a shared node, so only a node of the part leads on.
      by_cases shared : store.isShared id = true
      · rw [if_pos shared] at answer
        cases answer
        exact absurd isNext List.not_mem_nil
      · rw [if_neg shared, bind_eq_ok_iff] at answer
        obtain ⟨node, isNode, same⟩ := answer
        cases same
        have isTarget := List.mem_reverse.mp isNext
        exact (inPart (Bool.eq_false_iff.mpr shared)).step
          ⟨node, isNode, isTarget⟩ notShared

/-- Nothing but a node of the part stops the search. -/
theorem owns_live (sound : store.Sound)
    (live : ∀ id ∈ store.part start, store.Live id) :
    ∀ id, store.Owns start id → store.Live id := by
  intro id owns
  cases shared : store.isShared id with
  | true =>
      exact sound.shared_live shared
  | false =>
      exact live id (part_iff_owns.mpr ⟨owns, shared⟩)

/-- The search ends with the nodes of the part in ascending order. -/
theorem exists_owned_part (sound : store.Sound)
    (live : ∀ id ∈ store.part start, store.Live id) :
    ∃ owned, store.owned start = .ok owned ∧ owned.Pairwise (· < ·) ∧
      ∀ id, id ∈ owned ↔ id ∈ store.part start := by
  obtain ⟨owned, isOwned⟩ := exists_owned sound (owns_live sound live)
  refine ⟨owned, isOwned, owned_ascending isOwned, ?_⟩
  intro id
  exact ((owned_spec sound isOwned).2.1 id).trans part_iff_owns.symm

/-! ## Freeing one node after the other -/

/-- Frees the nodes one after the other, up to one that is not in use. What
was freed before it stays freed. -/
def freeEach (store : Store) : List Nat → Except Fault Unit × Store
  | [] => (.ok (), store)
  | id :: rest =>
    match store.free id with
    | .error fault => (.error fault, store)
    | .ok after => after.freeEach rest

/-- A release with the store that it leaves behind also where it fails. -/
def releaseInPlace (store : Store) (start : Nat) :
    Except Fault Nat × Store :=
  match store.owned start with
  | .error fault => (.error fault, store)
  | .ok owned =>
    match store.freeEach owned with
    | (.error fault, after) => (.error fault, after)
    | (.ok (), after) => (.ok owned.length, after)

theorem freeEach_eq {ids : List Nat} (nodup : ids.Nodup)
    (live : ∀ id ∈ ids, store.Live id) :
    store.freeEach ids = (.ok (), ids.foldl recycle store) := by
  induction ids generalizing store with
  | nil =>
      rfl
  | cons first rest inductionHypothesis =>
      obtain ⟨notLater, restNodup⟩ := List.nodup_cons.mp nodup
      have firstLive := live first List.mem_cons_self
      have restLive : ∀ id ∈ rest, (store.recycle first).Live id := by
        intro id member
        have different : id ≠ first := by
          intro same
          rw [same] at member
          exact notLater member
        exact (live_recycle_iff firstLive id).mpr
          ⟨different, live id (List.mem_cons_of_mem first member)⟩
      have isFreed := free_eq_ok_iff.mpr ⟨firstLive, rfl⟩
      rw [freeEach, isFreed]
      exact inductionHypothesis restNodup restLive

/-- The nodes that were found are all in use, so a release that fails has freed
none. -/
theorem releaseInPlace_eq (sound : store.Sound) (start : Nat) :
    store.releaseInPlace start =
      match store.release start with
      | .error fault => (.error fault, store)
      | .ok (count, after) => (.ok count, after) := by
  rw [releaseInPlace, release]
  cases isOwned : store.owned start with
  | error fault =>
      rfl
  | ok owned =>
      obtain ⟨nodup, mem_iff, live⟩ := owned_spec sound isOwned
      have isFreed := freeEach_eq nodup fun id member =>
        live id ((mem_iff id).mp member).1
      simp only [isFreed]
      rfl

/-! ## What stays as it is -/

/-- What putting away leaves of a slot. -/
def retire (slot : Slot) : Slot :=
  { slot with
    live := false
    node := { slot.node with transitions := ∅ } }

def retireAll (slots : Array Slot) (ids : List Nat) : Array Slot :=
  ids.foldl (fun slots id => slots.modify id retire) slots

/-- Nodes that are put away come to the front of the pool, the last one first.
Where none of them is shared nothing else changes but their slots. -/
theorem recycleAll_eq {ids : List Nat}
    (notShared : ∀ id ∈ ids, store.isShared id = false) :
    ids.foldl recycle store =
      { store with
        slots := retireAll store.slots ids
        pool := ids.reverse ++ store.pool } := by
  induction ids generalizing store with
  | nil =>
      rfl
  | cons first rest inductionHypothesis =>
      have recycled : store.recycle first =
          { store with
            slots := store.slots.modify first retire
            pool := first :: store.pool } := by
        have firstNotShared := notShared first List.mem_cons_self
        rw [isShared, Bool.or_eq_false_iff, beq_eq_false_iff_ne,
          beq_eq_false_iff_ne] at firstNotShared
        rw [recycle, if_neg firstNotShared.1, if_neg firstNotShared.2]
        rfl
      have restNotShared :
          ∀ id ∈ rest, (store.recycle first).isShared id = false := by
        intro id member
        rw [recycled]
        exact notShared id (List.mem_cons_of_mem first member)
      rw [List.foldl_cons, inductionHypothesis restNotShared, recycled,
        List.reverse_cons, List.append_assoc]
      rfl

theorem getElem?_retireAll {ids : List Nat} (notMember : id ∉ ids)
    (slots : Array Slot) : (retireAll slots ids)[id]? = slots[id]? := by
  induction ids generalizing slots with
  | nil =>
      rfl
  | cons first rest inductionHypothesis =>
      rw [List.mem_cons, not_or] at notMember
      have isRest := inductionHypothesis notMember.2
        (slots.modify first retire)
      rw [Array.getElem?_modify, if_neg (Ne.symm notMember.1)] at isRest
      exact isRest

/-! ## What is handed out again -/

/-- The next nodes that are handed out, so many of them. -/
def handedOut (store : Store) : Nat → List Nat
  | 0 => []
  | count + 1 => store.alloc.1 :: store.alloc.2.handedOut count

theorem alloc_of_pool {first : Nat} {rest : List Nat}
    (isPool : store.pool = first :: rest) :
    store.alloc.1 = first ∧ store.alloc.2.pool = rest := by
  obtain ⟨slots, pool, any, empty, limit, reused, issued⟩ := store
  cases isPool
  exact ⟨rfl, rfl⟩

theorem handedOut_of_pool {ids rest : List Nat}
    (isPool : store.pool = ids ++ rest) :
    store.handedOut ids.length = ids := by
  induction ids generalizing store with
  | nil =>
      rfl
  | cons first later inductionHypothesis =>
      obtain ⟨isFirst, isLater⟩ := alloc_of_pool isPool
      rw [List.length_cons, handedOut, isFirst, inductionHypothesis isLater]

/-! ## Whole releases -/

/-- The part of the start was freed, and nothing else happened. -/
structure Released (store : Store) (start count : Nat) (after : Store) :
    Prop where
  encard_part : (store.part start).encard = count
  live_iff : ∀ id, after.Live id ↔ store.Live id ∧ id ∉ store.part start
  /-- The freed nodes are the next to be handed out, in descending order. -/
  descending : (after.handedOut count).Pairwise (· > ·)
  mem_handedOut_iff : ∀ id,
    id ∈ after.handedOut count ↔ id ∈ store.part start
  pool_eq : after.pool = after.handedOut count ++ store.pool
  slot_eq : ∀ id, id ∉ store.part start →
    after.slots[id]? = store.slots[id]?
  rest_eq : after =
    { store with
      slots := after.slots
      pool := after.pool }

theorem exists_released (sound : store.Sound)
    (live : ∀ id ∈ store.part start, store.Live id) :
    ∃ count after, store.release start = .ok (count, after) ∧
      store.Released start count after := by
  obtain ⟨owned, isOwned, ascending, mem_iff⟩ :=
    exists_owned_part sound live
  have result : store.release start =
      .ok (owned.length, owned.foldl recycle store) := by
    rw [release, isOwned]
    rfl
  obtain ⟨_, live_iff, _⟩ := release_spec sound result
  have notShared : ∀ id ∈ owned, store.isShared id = false :=
    fun id member => Part.notShared ((mem_iff id).mp member)
  have isAfter := recycleAll_eq notShared
  have isHandedOut : (owned.foldl recycle store).handedOut owned.length =
      owned.reverse := by
    rw [← List.length_reverse, isAfter]
    exact handedOut_of_pool rfl
  refine ⟨_, _, result, ?_⟩
  constructor
  · have isPart : store.part start = {id | id ∈ owned} :=
      Set.ext fun id => (mem_iff id).symm
    rw [isPart]
    exact encard_mem_list (ascending.imp Nat.ne_of_lt)
  · intro id
    exact (live_iff id).trans
      (and_congr_right fun _ => not_congr part_iff_owns.symm)
  · rw [isHandedOut]
    exact List.pairwise_reverse.mpr ascending
  · intro id
    rw [isHandedOut, List.mem_reverse]
    exact mem_iff id
  · rw [isHandedOut, isAfter]
  · intro id notInPart
    rw [isAfter]
    exact getElem?_retireAll (mt (mem_iff id).mp notInPart) store.slots
  · rw [isAfter]

/-- A release frees the nodes that its start has for itself. If one of them is
not in use it fails, and the store is as it was. -/
theorem Reached.release_part (reached : store.Reached) (start : Nat) :
    ((∀ id ∈ store.part start, store.Live id) →
      ∃ count after, store.release start = .ok (count, after) ∧
        store.releaseInPlace start = (.ok count, after) ∧
        store.Released start count after) ∧
    ((∃ id ∈ store.part start, ¬ store.Live id) →
      store.Refused (store.release start) ∧
      ∃ fault, store.release start = .error fault ∧
        store.releaseInPlace start = (.error fault, store)) := by
  have inPlace := releaseInPlace_eq reached.sound start
  constructor
  · intro live
    obtain ⟨count, after, result, released⟩ :=
      exists_released reached.sound live
    rw [result] at inPlace
    exact ⟨count, after, result, inPlace, released⟩
  · intro someDead
    obtain ⟨id, inPart, dead⟩ := someDead
    have refused :=
      refused_release reached.sound (Part.owns inPart) dead
    refine ⟨refused, ?_⟩
    obtain ⟨_, _, _, result, _⟩ := refused
    rw [result] at inPlace
    exact ⟨_, result, inPlace⟩

/-- A ring of two nodes, one of which also leads to itself and the other to
the node that accepts everything, and a node that leads to the ring and to a
freed node. -/
def ringAndLoose : Store where
  slots :=
    #[⟨1, true, freshAny⟩,
      ⟨2, true,
        { transitions :=
            (AtomMap.insert ∅ (.ofElement "a") 2).insert (.ofElement "b") 0 }⟩,
      ⟨3, true,
        { transitions :=
            (AtomMap.insert ∅ (.ofElement "a") 1).insert (.ofElement "b") 2 }⟩,
      ⟨4, true,
        { transitions :=
            (AtomMap.insert ∅ (.ofElement "a") 1).insert (.ofElement "b") 4 }⟩,
      ⟨5, false, {}⟩]
  pool := [4]
  sharedAny := some 0
  issued := 5

theorem reached_ringAndLoose : ringAndLoose.Reached := by
  have made : Reached _ := .alloc (.alloc (.alloc (.alloc (.anyNode .new))))
  have around : Reached _ := .setTransition made
    (show Store.setTransition _ 1 (.ofElement "a") 2 = .ok (none, _) from rfl)
  have toAny : Reached _ := .setTransition around
    (show Store.setTransition _ 1 (.ofElement "b") 0 = .ok (none, _) from rfl)
  have back : Reached _ := .setTransition toAny
    (show Store.setTransition _ 2 (.ofElement "a") 1 = .ok (none, _) from rfl)
  have toItself : Reached _ := .setTransition back
    (show Store.setTransition _ 2 (.ofElement "b") 2 = .ok (none, _) from rfl)
  have toRing : Reached _ := .setTransition toItself
    (show Store.setTransition _ 3 (.ofElement "a") 1 = .ok (none, _) from rfl)
  have loose : Reached _ := .setTransition toRing
    (show Store.setTransition _ 3 (.ofElement "b") 4 = .ok (none, _) from rfl)
  exact .free loose (show Store.free _ 4 = .ok ringAndLoose from rfl)

theorem part_ringAndLoose :
    ∀ id ∈ ringAndLoose.part 1, id = 1 ∨ id = 2 := by
  intro id inPart
  induction inPart with
  | start _ =>
      exact Or.inl rfl
  | @step id next _ step notShared inRing =>
      obtain ⟨node, found, isTarget⟩ := step
      cases inRing with
      | inl same =>
          subst same
          cases found
          have leads : next ∈ [2, 0] := isTarget
          cases List.mem_pair.mp leads with
          | inl same =>
              exact Or.inr same
          | inr same =>
              subst same
              cases notShared
      | inr same =>
          subst same
          cases found
          have leads : next ∈ [1, 2] := isTarget
          exact List.mem_pair.mp leads

theorem Reached.release_part_ringAndLoose :
    (∀ id ∈ ringAndLoose.part 1, ringAndLoose.Live id) ∧
    (∃ after, ringAndLoose.release 1 = .ok (2, after) ∧
      ringAndLoose.releaseInPlace 1 = (.ok 2, after) ∧
      ringAndLoose.Released 1 2 after ∧ after.pool = [2, 1, 4]) ∧
    (∃ id ∈ ringAndLoose.part 3, ¬ ringAndLoose.Live id) ∧
    ringAndLoose.Refused (ringAndLoose.release 3) ∧
    ∃ fault, ringAndLoose.release 3 = .error fault ∧
      ringAndLoose.releaseInPlace 3 = (.error fault, ringAndLoose) := by
  have ringLive : ∀ id ∈ ringAndLoose.part 1, ringAndLoose.Live id := by
    intro id inPart
    cases part_ringAndLoose id inPart with
    | inl same =>
        subst same
        exact ⟨_, rfl⟩
    | inr same =>
        subst same
        exact ⟨_, rfl⟩
  have someDead : ∃ id ∈ ringAndLoose.part 3, ¬ ringAndLoose.Live id := by
    refine ⟨4, (Part.start rfl).step ⟨_, rfl, ?_⟩ rfl, ?_⟩
    · decide
    · intro live
      obtain ⟨node, found⟩ := live
      cases found
  obtain ⟨frees, _⟩ := reached_ringAndLoose.release_part 1
  obtain ⟨count, after, result, inPlace, released⟩ := frees ringLive
  have isResult : ringAndLoose.release 1 = .ok (2, _) := rfl
  rw [isResult] at result
  cases result
  exact ⟨ringLive, ⟨_, isResult, inPlace, released, rfl⟩, someDead,
    (reached_ringAndLoose.release_part 3).2 someDead⟩

end ContentModel.Automaton.Store
