import ContentModel.Proofs.Automaton.Growth
import ContentModel.Proofs.Automaton.Release
import ContentModel.Proofs.Automaton.Walk
import Mathlib.Order.CompletePartialOrder

/-!
# Automata that keep to an area

The automata of a store share no node but the two shared ones. Each of them has
an area of its own: nodes that lead to each other alone. A store can give up an
area without any change to what starts elsewhere.

Main statements: `Confined.frame`, what is outside an area does not depend on
it, and `Confined.release`, a release frees nothing outside the area of the
automaton.
-/

namespace ContentModel.Automaton.Store

variable {store before after : Store} {start : Nat} {area : Set Nat}

/-! ## Shared nodes -/

/-- The shared nodes are as they were first made. -/
structure Standard (store : Store) : Prop where
  any : ∀ id, store.sharedAny = some id → store.node id = .ok freshAny
  empty : ∀ id, store.sharedEmpty = some id → store.node id = .ok freshEmpty

theorem standard_new : Standard {} where
  any id impossible := by
    cases impossible
  empty id impossible := by
    cases impossible

theorem Grown.standard {created : List Nat} (sound : before.Sound)
    (grown : before.Grown created after) (standard : before.Standard) :
    after.Standard where
  any id shared := by
    cases grown.sharedAny_cases sound shared with
    | inl isNew => exact isNew
    | inr wasShared =>
        exact grown.keeps id freshAny (standard.any id wasShared)
  empty id shared := by
    cases grown.sharedEmpty_cases sound shared with
    | inl isNew => exact isNew
    | inr wasShared =>
        exact grown.keeps id freshEmpty (standard.empty id wasShared)

/-- Shared nodes that were there before are standard if they were. -/
theorem Keeps.standard (keeps : Keeps after before)
    (sound : before.Sound) (afterSound : after.Sound)
    (standard : before.Standard) : after.Standard where
  any id shared := by
    obtain ⟨node, found⟩ := afterSound.anyLive id shared
    have earlier := standard.any id (keeps.sharedAny afterSound sound shared)
    rw [keeps id node found] at earlier
    rw [found, earlier]
  empty id shared := by
    obtain ⟨node, found⟩ := afterSound.emptyLive id shared
    have earlier :=
      standard.empty id (keeps.sharedEmpty afterSound sound shared)
    rw [keeps id node found] at earlier
    rw [found, earlier]

theorem Sound.shared_live (sound : store.Sound) {id : Nat}
    (shared : store.isShared id = true) : store.Live id := by
  cases (Store.isShared_iff store id).mp shared with
  | inl isAny => exact sound.anyLive id isAny
  | inr isEmpty => exact sound.emptyLive id isEmpty

/-- What a release leaves in use is as it was. -/
theorem keeps_of_release (sound : store.Sound) {count : Nat}
    (result : store.release start = .ok (count, after)) :
    Keeps after store := by
  obtain ⟨_, live_iff, kept⟩ := release_spec sound result
  intro id node found
  obtain ⟨⟨old, wasFound⟩, notOwned⟩ := (live_iff id).mp ⟨node, found⟩
  have stays := kept id old wasFound notOwned
  rw [found] at stays
  cases stays
  exact wasFound

/-- A release does not fail where every owned node is in use. What it leaves in
use stays as it was. -/
theorem exists_release (sound : store.Sound)
    (live : ∀ id, store.Owns start id → store.Live id) :
    ∃ count after, store.release start = .ok (count, after) ∧
      after.Sound ∧ Keeps after store ∧
      (∀ id, after.Live id ↔ store.Live id ∧
        ¬ (store.Owns start id ∧ store.isShared id = false)) ∧
      ∀ id node, store.node id = .ok node →
        ¬ (store.Owns start id ∧ store.isShared id = false) →
        after.node id = .ok node := by
  obtain ⟨owned, isOwned⟩ := exists_owned sound live
  have result : store.release start =
      .ok (owned.length, owned.foldl recycle store) := by
    rw [Store.release, isOwned]
    rfl
  obtain ⟨afterSound, live_iff, kept⟩ := release_spec sound result
  exact ⟨_, _, result, afterSound, keeps_of_release sound result, live_iff,
    kept⟩

/-! ## Areas -/

/-- An automaton starts in an area or at a shared node. The nodes of the area
are in use, have no role and lead to each other alone. -/
structure Confined (store : Store) (start : Nat) (area : Set Nat) :
    Prop where
  start_mem : start ∈ area ∨ store.isShared start = true
  node : ∀ id ∈ area, ∃ node, store.node id = .ok node ∧
    node.role = .ordinary ∧
    ∀ name next, node.transitions.find? name = some next → next ∈ area

namespace Confined

theorem notShared (sound : store.Sound) (confined : Confined store start area)
    {id : Nat} (member : id ∈ area) : store.isShared id = false := by
  obtain ⟨node, found, ordinary, _⟩ := confined.node id member
  rw [← Bool.not_eq_true, sound.isShared_iff found]
  exact fun hasRole => hasRole ordinary

/-- A walk stays in the area, or at a shared node. -/
theorem closed (sound : store.Sound) (confined : Confined store start area) :
    store.reader.Closed { id | id ∈ area ∨ store.isShared id = true } := by
  intro id member
  cases member with
  | inl inArea =>
      obtain ⟨node, found, ordinary, leads⟩ := confined.node id inArea
      refine ⟨node, found, ?_⟩
      intro name next advance
      rw [Node.advance_eq, ordinary] at advance
      exact Or.inl (leads name next advance)
  | inr shared =>
      obtain ⟨node, found⟩ := sound.shared_live shared
      refine ⟨node, found, ?_⟩
      intro name next advance
      have hasRole := (sound.isShared_iff found).mp shared
      cases isRole : node.role with
      | ordinary =>
          exact absurd isRole hasRole
      | any =>
          rw [Node.advance_eq, isRole] at advance
          cases advance
          exact Or.inr shared
      | empty =>
          rw [Node.advance_eq, isRole] at advance
          cases advance

/-- An automaton depends on the nodes of its area and on the shared nodes
alone. -/
theorem frame (sound : before.Sound) (afterSound : after.Sound)
    (confined : Confined before start area)
    (kept : ∀ id, id ∈ area ∨ before.isShared id = true →
      ∀ node, before.node id = .ok node → after.node id = .ok node) :
    Confined after start area ∧
      ∀ word, after.walk start word = before.walk start word := by
  have closed := confined.closed sound
  constructor
  · constructor
    · cases confined.start_mem with
      | inl inArea =>
          exact Or.inl inArea
      | inr shared =>
          obtain ⟨node, found⟩ := sound.shared_live shared
          have stays := kept start (Or.inr shared) node found
          rw [sound.isShared_iff found] at shared
          exact Or.inr ((afterSound.isShared_iff stays).mpr shared)
    · intro id member
      obtain ⟨node, found, rest⟩ := confined.node id member
      exact ⟨node, kept id (Or.inl member) node found, rest⟩
  · intro word
    have same : ∀ id ∈ { id | id ∈ area ∨ before.isShared id = true },
        after.reader.read id = before.reader.read id := by
      intro id member
      obtain ⟨node, found, _⟩ := closed id member
      exact (kept id member node found).trans found.symm
    exact closed.walk_congr same confined.start_mem word

/-! ## Releasing an area -/

/-- What is owned lies in the area, but for the shared nodes. -/
theorem owns_mem (confined : Confined store start area) {id : Nat}
    (owns : store.Owns start id) :
    id ∈ area ∨ store.isShared id = true := by
  apply Search.Reachable.invariant
    (motive := fun id => id ∈ area ∨ store.isShared id = true) owns
  · intro first member
    rw [List.mem_singleton.mp member]
    exact confined.start_mem
  · intro key targets member answer next isNext
    rw [ownedTargets] at answer
    by_cases shared : store.isShared key = true
    · rw [if_pos shared] at answer
      cases answer
      exact absurd isNext List.not_mem_nil
    · obtain ⟨node, found, _, leads⟩ :=
        confined.node key (member.resolve_right shared)
      rw [if_neg shared, found] at answer
      cases answer
      obtain ⟨name, isFound⟩ :=
        (node.transitions.mem_values_iff next).mp (List.mem_reverse.mp isNext)
      exact Or.inl (leads name next isFound)

/-- A release does not fail. It frees nothing outside the area, and what stays
in use stays as it is. -/
theorem release (sound : store.Sound)
    (confined : Confined store start area) :
    ∃ count after, store.release start = .ok (count, after) ∧
      after.Sound ∧ Keeps after store ∧
      ∀ id, id ∉ area → ∀ node, store.node id = .ok node →
        after.node id = .ok node := by
  have live : ∀ id, store.Owns start id → store.Live id := by
    intro id owns
    obtain ⟨node, found, _⟩ :=
      confined.closed sound id (confined.owns_mem owns)
    exact ⟨node, found⟩
  obtain ⟨count, after, result, afterSound, keeps, _, kept⟩ :=
    exists_release sound live
  refine ⟨count, after, result, afterSound, keeps, ?_⟩
  intro id outside node found
  apply kept id node found
  intro owned
  cases confined.owns_mem owned.1 with
  | inl inArea =>
      exact outside inArea
  | inr shared =>
      rw [owned.2] at shared
      cases shared

end Confined

end ContentModel.Automaton.Store
