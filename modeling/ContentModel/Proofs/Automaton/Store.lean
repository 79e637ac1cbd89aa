import ContentModel.Automaton.Store
import ContentModel.Proofs.Automaton.Role
import ContentModel.Proofs.Fault
import Mathlib.Data.List.Nodup

/-!
# Stores whose pool is in order

A slot is either in use or waits in the pool, and the two shared nodes are the
only ones with a role of their own. Every operation on single nodes keeps it
so. Main statement for the later ones: an operation is described by what it
does to the nodes that can be read (`node_alloc`, `node_modifyNode`,
`node_recycle`).
-/

namespace ContentModel.Automaton.Store

variable {store : Store}

/-- The node can be read. -/
def Live (store : Store) (id : Nat) : Prop :=
  ∃ node, store.node id = .ok node

theorem slot_eq_ok_iff (store : Store) (id : Nat) (slot : Slot) :
    store.slot id = .ok slot ↔
      store.slots[id]? = some slot ∧ slot.live = true := by
  rw [Store.slot]
  cases store.slots[id]? with
  | none =>
      simp
  | some found =>
      by_cases live : found.live = true
      · simp only [live, if_true, Except.ok.injEq, Option.some.injEq]
        constructor
        · rintro rfl
          exact ⟨rfl, live⟩
        · exact And.left
      · simp only [if_neg live, reduceCtorEq, Option.some.injEq, false_iff]
        rintro ⟨rfl, isLive⟩
        exact live isLive

theorem node_eq_ok_iff (store : Store) (id : Nat) (node : Node) :
    store.node id = .ok node ↔
      ∃ slot, store.slots[id]? = some slot ∧ slot.live = true ∧
        slot.node = node := by
  rw [Store.node, bind_eq_ok_iff]
  constructor
  · rintro ⟨slot, found, same⟩
    obtain ⟨present, live⟩ := (slot_eq_ok_iff store id slot).mp found
    exact ⟨slot, present, live, Except.ok.inj same⟩
  · rintro ⟨slot, present, live, same⟩
    exact ⟨slot, (slot_eq_ok_iff store id slot).mpr ⟨present, live⟩,
      congrArg Except.ok same⟩

theorem node_congr {before after : Store} {id : Nat}
    (same : after.slots[id]? = before.slots[id]?) :
    after.node id = before.node id := by
  simp only [Store.node, Store.slot, same]

theorem live_iff_slot (store : Store) (id : Nat) :
    store.Live id ↔ ∃ slot, store.slot id = .ok slot := by
  constructor
  · rintro ⟨node, found⟩
    obtain ⟨slot, present, live, _⟩ := (node_eq_ok_iff store id node).mp found
    exact ⟨slot, (slot_eq_ok_iff store id slot).mpr ⟨present, live⟩⟩
  · rintro ⟨slot, found⟩
    exact ⟨slot.node, by rw [Store.node, found]; rfl⟩

theorem Live.lt_size {id : Nat} (live : store.Live id) :
    id < store.slots.size := by
  obtain ⟨node, found⟩ := live
  obtain ⟨slot, present, _⟩ := (node_eq_ok_iff store id node).mp found
  exact (Array.getElem?_eq_some_iff.mp present).1

/-! ## The pool -/

/-- The pool holds the slots that are not in use, each once. -/
structure Pooled (store : Store) : Prop where
  poolNodup : store.pool.Nodup
  mem_pool_iff :
    ∀ id, id ∈ store.pool ↔ id < store.slots.size ∧ ¬ store.Live id

/-- The pool is in order, and the shared nodes are in use, are two nodes and are
the only ones that have flags. -/
structure Sound (store : Store) : Prop extends Pooled store where
  isAny_iff : ∀ id node, store.node id = .ok node →
    (node.isAny = true ↔ store.sharedAny = some id)
  isEmpty_iff : ∀ id node, store.node id = .ok node →
    (node.isEmpty = true ↔ store.sharedEmpty = some id)
  apart : ∀ id, store.sharedAny = some id → store.sharedEmpty ≠ some id
  anyLive : ∀ id, store.sharedAny = some id → store.Live id
  emptyLive : ∀ id, store.sharedEmpty = some id → store.Live id

theorem sound_new : Sound {} where
  poolNodup := List.nodup_nil
  mem_pool_iff id := by
    simp
  isAny_iff id node found := by
    simp [node_eq_ok_iff] at found
  isEmpty_iff id node found := by
    simp [node_eq_ok_iff] at found
  apart id impossible := by
    cases impossible
  anyLive id impossible := by
    cases impossible
  emptyLive id impossible := by
    cases impossible

theorem Sound.setStateLimit (sound : store.Sound) (limit : Nat) :
    Sound { store with stateLimit := limit } :=
  ⟨⟨sound.poolNodup, sound.mem_pool_iff⟩, sound.isAny_iff, sound.isEmpty_iff,
    sound.apart, sound.anyLive, sound.emptyLive⟩

/-- No node has both flags. -/
theorem Sound.notBoth (sound : store.Sound) {id : Nat} {node : Node}
    (found : store.node id = .ok node) :
    ¬ (node.isAny = true ∧ node.isEmpty = true) := by
  rw [sound.isAny_iff id node found, sound.isEmpty_iff id node found]
  exact fun both => sound.apart id both.1 both.2

theorem Sound.any_iff (sound : store.Sound) (id : Nat) (node : Node)
    (found : store.node id = .ok node) :
    node.role = .any ↔ store.sharedAny = some id := by
  rw [Node.role_eq_any_iff]
  exact sound.isAny_iff id node found

theorem Sound.empty_iff (sound : store.Sound) (id : Nat) (node : Node)
    (found : store.node id = .ok node) :
    node.role = .empty ↔ store.sharedEmpty = some id := by
  rw [Node.role_eq_empty_iff, ← sound.isEmpty_iff id node found,
    and_iff_right_iff_imp, ← Bool.not_eq_true]
  intro isEmpty isAny
  exact sound.notBoth found ⟨isAny, isEmpty⟩

theorem Sound.isShared_iff (sound : store.Sound) {id : Nat} {node : Node}
    (found : store.node id = .ok node) :
    store.isShared id = true ↔ node.role ≠ .ordinary := by
  have isAny := sound.any_iff id node found
  have isEmpty := sound.empty_iff id node found
  simp only [isShared, Bool.or_eq_true, beq_iff_eq, ← isAny, ← isEmpty]
  cases node.role with
  | ordinary => simp
  | any => simp
  | empty => simp

/-! ### Handing out -/

@[simp] theorem sharedAny_alloc (store : Store) :
    store.alloc.2.sharedAny = store.sharedAny := by
  unfold alloc
  split
  · rfl
  · rfl

@[simp] theorem sharedEmpty_alloc (store : Store) :
    store.alloc.2.sharedEmpty = store.sharedEmpty := by
  unfold alloc
  split
  · rfl
  · rfl

@[simp] theorem stateLimit_alloc (store : Store) :
    store.alloc.2.stateLimit = store.stateLimit := by
  unfold alloc
  split
  · rfl
  · rfl

@[simp] theorem issued_alloc (store : Store) :
    store.alloc.2.issued = store.issued + 1 := by
  unfold alloc
  split
  · rfl
  · rfl

theorem size_le_alloc (store : Store) :
    store.slots.size ≤ store.alloc.2.slots.size := by
  unfold alloc
  split
  · exact Nat.le_of_eq Array.size_modify.symm
  · simp

section Alloc

variable (pooled : store.Pooled)

include pooled

theorem not_live_alloc : ¬ store.Live store.alloc.1 := by
  obtain ⟨slots, pool, any, empty, limit, reused, issued⟩ := store
  cases pool with
  | nil =>
      intro live
      exact Nat.lt_irrefl _ live.lt_size
  | cons id pool =>
      exact ((pooled.mem_pool_iff id).mp List.mem_cons_self).2

theorem slots_alloc (other : Nat) :
    store.alloc.2.slots[other]? =
      if other = store.alloc.1 then some { serial := store.issued + 1 }
      else store.slots[other]? := by
  obtain ⟨slots, pool, any, empty, limit, reused, issued⟩ := store
  cases pool with
  | nil =>
      exact Array.getElem?_push
  | cons id pool =>
      have present : id < slots.size :=
        ((pooled.mem_pool_iff id).mp List.mem_cons_self).1
      change (slots.modify id fun slot => slot.reset (issued + 1))[other]? =
        if other = id then some { serial := issued + 1 } else slots[other]?
      rw [Array.getElem?_modify]
      by_cases same : other = id
      · rw [if_pos same, if_pos same.symm, same,
          Array.getElem?_eq_getElem present, Option.map_some, Slot.reset_eq]
      · rw [if_neg same, if_neg (Ne.symm same)]

/-- The node that is handed out is blank, and the others stay. -/
theorem node_alloc (other : Nat) :
    store.alloc.2.node other =
      if other = store.alloc.1 then .ok {} else store.node other := by
  have found := slots_alloc pooled other
  by_cases same : other = store.alloc.1
  · rw [if_pos same] at found ⊢
    exact (node_eq_ok_iff _ _ _).mpr ⟨_, found, rfl, rfl⟩
  · rw [if_neg same] at found ⊢
    exact node_congr found

theorem live_alloc_iff (other : Nat) :
    store.alloc.2.Live other ↔
      other = store.alloc.1 ∨ store.Live other := by
  rw [Live, node_alloc pooled]
  by_cases same : other = store.alloc.1
  · simp [same]
  · simp [same, Live]

theorem Pooled.alloc : store.alloc.2.Pooled := by
  constructor
  · obtain ⟨slots, pool, any, empty, limit, reused, issued⟩ := store
    cases pool with
    | nil =>
        exact List.nodup_nil
    | cons id pool =>
        exact (List.nodup_cons.mp pooled.poolNodup).2
  · intro other
    rw [live_alloc_iff pooled, not_or]
    obtain ⟨slots, pool, any, empty, limit, reused, issued⟩ := store
    have waiting := pooled.mem_pool_iff other
    cases pool with
    | nil =>
        simp only [Store.alloc, Array.size_push, List.not_mem_nil,
          false_iff, not_and] at waiting ⊢
        intro within notLast
        exact waiting (by omega)
    | cons id pool =>
        obtain ⟨notLater, _⟩ := List.nodup_cons.mp pooled.poolNodup
        simp only [Store.alloc, Array.size_modify,
          List.mem_cons] at waiting ⊢
        constructor
        · intro later
          obtain ⟨within, dead⟩ := waiting.mp (Or.inr later)
          refine ⟨within, ?_, dead⟩
          rintro rfl
          exact notLater later
        · rintro ⟨within, different, dead⟩
          exact (waiting.mpr ⟨within, dead⟩).resolve_left different

end Alloc

/-! ### Changing a node -/

theorem node_modifyNode (store : Store) (id : Nat) (change : Node → Node)
    (other : Nat) :
    (store.modifyNode id change).node other =
      if other = id then (store.node id).map change else store.node other := by
  have found : (store.modifyNode id change).slots[other]? = _ :=
    Array.getElem?_modify
  by_cases same : other = id
  · subst same
    rw [if_pos rfl] at found ⊢
    simp only [Store.node, Store.slot, found]
    cases store.slots[other]? with
    | none =>
        rfl
    | some slot =>
        simp only [Option.map_some]
        split
        · rfl
        · rfl
  · rw [if_neg (Ne.symm same)] at found
    rw [if_neg same]
    exact node_congr found

theorem live_modifyNode_iff (store : Store) (id : Nat)
    (change : Node → Node) (other : Nat) :
    (store.modifyNode id change).Live other ↔ store.Live other := by
  rw [Live, node_modifyNode]
  by_cases same : other = id
  · subst same
    rw [if_pos rfl, Live]
    cases store.node other with
    | error fault => simp [Except.map]
    | ok node => simp [Except.map]
  · rw [if_neg same, Live]

theorem Pooled.modifyNode (pooled : store.Pooled) (id : Nat)
    (change : Node → Node) : (store.modifyNode id change).Pooled where
  poolNodup := pooled.poolNodup
  mem_pool_iff other := by
    rw [live_modifyNode_iff]
    apply (pooled.mem_pool_iff other).trans
    simp only [Store.modifyNode, Array.size_modify]

theorem Sound.modifyNode (sound : store.Sound) {id : Nat}
    {change : Node → Node}
    (sameFlags : ∀ node, (change node).isAny = node.isAny ∧
      (change node).isEmpty = node.isEmpty) :
    (store.modifyNode id change).Sound := by
  have before : ∀ other node,
      (store.modifyNode id change).node other = .ok node →
      ∃ old, store.node other = .ok old ∧ node.isAny = old.isAny ∧
        node.isEmpty = old.isEmpty := by
    intro other node found
    rw [node_modifyNode] at found
    split at found
    · rename_i same
      subst same
      cases old : store.node other with
      | error fault =>
          rw [old] at found
          cases found
      | ok oldNode =>
          rw [old] at found
          cases found
          exact ⟨oldNode, rfl, sameFlags oldNode⟩
    · exact ⟨node, found, rfl, rfl⟩
  refine ⟨sound.toPooled.modifyNode id change, ?_, ?_, sound.apart, ?_, ?_⟩
  · intro other node found
    obtain ⟨old, oldFound, sameAny, _⟩ := before other node found
    rw [sameAny]
    exact sound.isAny_iff other old oldFound
  · intro other node found
    obtain ⟨old, oldFound, _, sameEmpty⟩ := before other node found
    rw [sameEmpty]
    exact sound.isEmpty_iff other old oldFound
  · intro other shared
    exact (live_modifyNode_iff ..).mpr (sound.anyLive other shared)
  · intro other shared
    exact (live_modifyNode_iff ..).mpr (sound.emptyLive other shared)

/-! ### Putting away -/

theorem node_recycle {id : Nat} (live : store.Live id) (other : Nat) :
    (store.recycle id).node other =
      if other = id then .error (.freedNode id) else store.node other := by
  have found : (store.recycle id).slots[other]? = _ :=
    Array.getElem?_modify
  by_cases same : other = id
  · subst same
    obtain ⟨node, isNode⟩ := live
    obtain ⟨slot, present, _, _⟩ := (node_eq_ok_iff ..).mp isNode
    rw [if_pos rfl, present] at found
    rw [if_pos rfl]
    simp only [Store.node, Store.slot, found]
    rfl
  · rw [if_neg (Ne.symm same)] at found
    rw [if_neg same]
    exact node_congr found

theorem live_recycle_iff {id : Nat} (live : store.Live id) (other : Nat) :
    (store.recycle id).Live other ↔ other ≠ id ∧ store.Live other := by
  rw [Live, node_recycle live]
  by_cases same : other = id
  · simp [same]
  · simp [same, Live]

theorem ite_none_eq_some_iff {shared : Option Nat} {id other : Nat} :
    (if shared = some id then none else shared) = some other ↔
      other ≠ id ∧ shared = some other := by
  by_cases same : shared = some id
  · rw [if_pos same, same]
    simp [eq_comm]
  · rw [if_neg same]
    constructor
    · intro isShared
      exact ⟨fun equal => same (equal ▸ isShared), isShared⟩
    · exact And.right

theorem Pooled.recycle (pooled : store.Pooled) {id : Nat}
    (live : store.Live id) : (store.recycle id).Pooled := by
  constructor
  · refine List.nodup_cons.mpr ⟨?_, pooled.poolNodup⟩
    intro member
    exact ((pooled.mem_pool_iff id).mp member).2 live
  · intro other
    have otherWaiting := pooled.mem_pool_iff other
    have within := live.lt_size
    rw [live_recycle_iff live]
    simp only [Store.recycle, List.mem_cons, otherWaiting,
      Array.size_modify]
    constructor
    · rintro (rfl | ⟨present, dead⟩)
      · exact ⟨within, fun impossible => impossible.1 rfl⟩
      · exact ⟨present, fun stays => dead stays.2⟩
    · rintro ⟨present, gone⟩
      by_cases same : other = id
      · exact Or.inl same
      · exact Or.inr ⟨present, fun stays => gone ⟨same, stays⟩⟩

theorem Sound.recycle (sound : store.Sound) {id : Nat}
    (live : store.Live id) : (store.recycle id).Sound := by
  refine ⟨sound.toPooled.recycle live, ?_, ?_, ?_, ?_, ?_⟩
  · intro other node found
    rw [node_recycle live] at found
    split at found
    · cases found
    · rename_i different
      simp only [Store.recycle, ite_none_eq_some_iff]
      rw [sound.isAny_iff other node found]
      exact ⟨fun shared => ⟨different, shared⟩, And.right⟩
  · intro other node found
    rw [node_recycle live] at found
    split at found
    · cases found
    · rename_i different
      simp only [Store.recycle, ite_none_eq_some_iff]
      rw [sound.isEmpty_iff other node found]
      exact ⟨fun shared => ⟨different, shared⟩, And.right⟩
  · intro other isAny isEmpty
    exact sound.apart other (ite_none_eq_some_iff.mp isAny).2
      (ite_none_eq_some_iff.mp isEmpty).2
  · intro other shared
    obtain ⟨different, wasShared⟩ := ite_none_eq_some_iff.mp shared
    exact (live_recycle_iff live other).mpr
      ⟨different, sound.anyLive other wasShared⟩
  · intro other shared
    obtain ⟨different, wasShared⟩ := ite_none_eq_some_iff.mp shared
    exact (live_recycle_iff live other).mpr
      ⟨different, sound.emptyLive other wasShared⟩

/-! ### New nodes of every role -/

/-- One new node, which is registered as shared if it has a role. The others
stay. -/
structure Introduces (before : Store) (id : Nat) (node : Node)
    (after : Store) : Prop where
  pooled : after.Pooled
  isNew : ¬ before.Live id
  /-- A node that was blank has one flag at most. -/
  notBoth : ¬ (node.isAny = true ∧ node.isEmpty = true)
  node_eq : ∀ other, after.node other =
    if other = id then .ok node else before.node other
  anyFree : node.role = .any → before.sharedAny = none
  emptyFree : node.role = .empty → before.sharedEmpty = none
  sharedAny_eq : after.sharedAny =
    if node.role = .any then some id else before.sharedAny
  sharedEmpty_eq : after.sharedEmpty =
    if node.role = .empty then some id else before.sharedEmpty
  stateLimit_eq : after.stateLimit = before.stateLimit

namespace Introduces

variable {before after : Store} {id : Nat} {node : Node}

theorem live_iff (introduces : Introduces before id node after)
    (other : Nat) : after.Live other ↔ other = id ∨ before.Live other := by
  rw [Live, introduces.node_eq]
  by_cases same : other = id
  · simp [same]
  · simp [same, Live]

theorem role_eq_empty_iff (introduces : Introduces before id node after) :
    node.role = .empty ↔ node.isEmpty = true := by
  rw [Node.role_eq_empty_iff, and_iff_right_iff_imp, ← Bool.not_eq_true]
  intro isEmpty isAny
  exact introduces.notBoth ⟨isAny, isEmpty⟩

theorem sound (introduces : Introduces before id node after)
    (sound : before.Sound) : after.Sound := by
  have notSharedAny : before.sharedAny ≠ some id :=
    fun shared => introduces.isNew (sound.anyLive id shared)
  have notSharedEmpty : before.sharedEmpty ≠ some id :=
    fun shared => introduces.isNew (sound.emptyLive id shared)
  refine ⟨introduces.pooled, ?_, ?_, ?_, ?_, ?_⟩
  · intro other found isFound
    rw [introduces.node_eq] at isFound
    rw [introduces.sharedAny_eq, ← Node.role_eq_any_iff]
    split at isFound
    · rename_i same
      cases isFound
      by_cases isAny : node.role = .any
      · simp [isAny, same]
      · rw [if_neg isAny, same]
        exact iff_of_false isAny notSharedAny
    · rename_i different
      rw [sound.any_iff other found isFound]
      by_cases isAny : node.role = .any
      · simp [isAny, introduces.anyFree isAny, Ne.symm different]
      · rw [if_neg isAny]
  · intro other found isFound
    rw [introduces.node_eq] at isFound
    rw [introduces.sharedEmpty_eq]
    split at isFound
    · rename_i same
      cases isFound
      rw [← introduces.role_eq_empty_iff]
      by_cases isEmpty : node.role = .empty
      · simp [isEmpty, same]
      · rw [if_neg isEmpty, same]
        exact iff_of_false isEmpty notSharedEmpty
    · rename_i different
      rw [sound.isEmpty_iff other found isFound]
      by_cases isEmpty : node.role = .empty
      · simp [isEmpty, introduces.emptyFree isEmpty, Ne.symm different]
      · rw [if_neg isEmpty]
  -- A shared node that is there already has another number than a new one.
  · intro other isAny isEmpty
    rw [introduces.sharedAny_eq] at isAny
    rw [introduces.sharedEmpty_eq] at isEmpty
    split at isAny
    · rename_i roleAny
      cases isAny
      rw [if_neg (by rw [roleAny]; exact Role.noConfusion)] at isEmpty
      exact notSharedEmpty isEmpty
    · split at isEmpty
      · cases isEmpty
        exact notSharedAny isAny
      · exact sound.apart other isAny isEmpty
  · intro other shared
    rw [introduces.sharedAny_eq] at shared
    rw [introduces.live_iff]
    split at shared
    · exact Or.inl (Option.some.inj shared).symm
    · exact Or.inr (sound.anyLive other shared)
  · intro other shared
    rw [introduces.sharedEmpty_eq] at shared
    rw [introduces.live_iff]
    split at shared
    · exact Or.inl (Option.some.inj shared).symm
    · exact Or.inr (sound.emptyLive other shared)

end Introduces

theorem introduces_blank (pooled : store.Pooled) :
    Introduces store store.alloc.1 {} store.alloc.2 where
  pooled := pooled.alloc
  isNew := not_live_alloc pooled
  notBoth := by
    decide
  node_eq := node_alloc pooled
  anyFree := nofun
  emptyFree := nofun
  sharedAny_eq := sharedAny_alloc store
  sharedEmpty_eq := sharedEmpty_alloc store
  stateLimit_eq := stateLimit_alloc store

private theorem node_allocWith (pooled : store.Pooled)
    (change : Node → Node) (other : Nat) :
    (store.alloc.2.modifyNode store.alloc.1 change).node other =
      if other = store.alloc.1 then .ok (change {})
      else store.node other := by
  rw [node_modifyNode, node_alloc pooled, node_alloc pooled, if_pos rfl]
  by_cases same : other = store.alloc.1
  · rw [if_pos same, if_pos same]
    rfl
  · rw [if_neg same, if_neg same, if_neg same]

theorem introduces_alloc (pooled : store.Pooled) (change : Node → Node)
    (ordinary : (change {}).role = .ordinary) :
    Introduces store store.alloc.1 (change {})
      (store.alloc.2.modifyNode store.alloc.1 change) where
  pooled := pooled.alloc.modifyNode store.alloc.1 change
  isNew := not_live_alloc pooled
  notBoth both := by
    rw [(Node.role_eq_ordinary_iff.mp ordinary).1] at both
    exact Bool.false_ne_true both.1
  node_eq := node_allocWith pooled change
  anyFree isAny := by
    rw [ordinary] at isAny
    cases isAny
  emptyFree isEmpty := by
    rw [ordinary] at isEmpty
    cases isEmpty
  sharedAny_eq := by
    rw [ordinary]
    exact sharedAny_alloc store
  sharedEmpty_eq := by
    rw [ordinary]
    exact sharedEmpty_alloc store
  stateLimit_eq := stateLimit_alloc store

/-- The node that accepts everything as it is first made. -/
def freshAny : Node :=
  { accepting := true, isAny := true }

/-- The node that accepts the empty word alone as it is first made. -/
def freshEmpty : Node :=
  { accepting := true, isEmpty := true }

theorem introduces_anyNode (pooled : store.Pooled)
    (missing : store.sharedAny = none) :
    Introduces store store.anyNode.1 freshAny store.anyNode.2 := by
  have isNew : store.anyNode =
      (store.alloc.1,
        { store.alloc.2.modifyNode store.alloc.1 fun node =>
            { node with isAny := true, accepting := true } with
          sharedAny := some store.alloc.1 }) := by
    rw [anyNode, missing]
  rw [isNew]
  have made := pooled.alloc.modifyNode store.alloc.1 fun node =>
    { node with isAny := true, accepting := true }
  exact
    { pooled := ⟨made.poolNodup, made.mem_pool_iff⟩
      isNew := not_live_alloc pooled
      notBoth := by decide
      node_eq := fun other =>
        (node_congr rfl).trans <| node_allocWith pooled
          (fun node => { node with isAny := true, accepting := true }) other
      anyFree := fun _ => missing
      emptyFree := nofun
      sharedAny_eq := rfl
      sharedEmpty_eq := sharedEmpty_alloc store
      stateLimit_eq := stateLimit_alloc store }

theorem introduces_emptyNode (pooled : store.Pooled)
    (missing : store.sharedEmpty = none) :
    Introduces store store.emptyNode.1 freshEmpty store.emptyNode.2 := by
  have isNew : store.emptyNode =
      (store.alloc.1,
        { store.alloc.2.modifyNode store.alloc.1 fun node =>
            { node with isEmpty := true, accepting := true } with
          sharedEmpty := some store.alloc.1 }) := by
    rw [emptyNode, missing]
  rw [isNew]
  have made := pooled.alloc.modifyNode store.alloc.1 fun node =>
    { node with isEmpty := true, accepting := true }
  exact
    { pooled := ⟨made.poolNodup, made.mem_pool_iff⟩
      isNew := not_live_alloc pooled
      notBoth := by decide
      node_eq := fun other =>
        (node_congr rfl).trans <| node_allocWith pooled
          (fun node => { node with isEmpty := true, accepting := true }) other
      anyFree := nofun
      emptyFree := fun _ => missing
      sharedAny_eq := sharedAny_alloc store
      sharedEmpty_eq := rfl
      stateLimit_eq := stateLimit_alloc store }

theorem sharedAny_anyNode (store : Store) :
    store.anyNode.2.sharedAny = some store.anyNode.1 := by
  unfold anyNode
  split
  · assumption
  · rfl

theorem sharedEmpty_emptyNode (store : Store) :
    store.emptyNode.2.sharedEmpty = some store.emptyNode.1 := by
  unfold emptyNode
  split
  · assumption
  · rfl

theorem sharedEmpty_anyNode (store : Store) :
    store.anyNode.2.sharedEmpty = store.sharedEmpty := by
  unfold anyNode
  split
  · rfl
  · exact sharedEmpty_alloc store

theorem sharedAny_emptyNode (store : Store) :
    store.emptyNode.2.sharedAny = store.sharedAny := by
  unfold emptyNode
  split
  · rfl
  · exact sharedAny_alloc store

theorem anyNode_of_some {id : Nat} (present : store.sharedAny = some id) :
    store.anyNode = (id, store) := by
  rw [anyNode, present]

theorem emptyNode_of_some {id : Nat}
    (present : store.sharedEmpty = some id) :
    store.emptyNode = (id, store) := by
  rw [emptyNode, present]

end ContentModel.Automaton.Store
