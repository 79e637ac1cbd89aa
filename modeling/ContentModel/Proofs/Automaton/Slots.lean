import ContentModel.Proofs.Automaton.Reached
import ContentModel.Proofs.Automaton.Subset
import Mathlib.Data.Set.Card

/-!
# The slots of a store

Whatever operations made a store, the slots that are not in use wait in the
pool and have an empty table, every step leads to a slot, and no two slots have
the same serial number (`Reached.inOrder`). Each operation on single nodes
changes one slot, so it is enough to look at that slot; a construction is made
of such operations.
-/

namespace ContentModel.Automaton

universe u

namespace Store

variable {store before after : Store}

/-! ## Counting -/

/-- The slots that do not wait in the pool are those in use. -/
theorem Pooled.liveCount_eq (pooled : store.Pooled) :
    store.liveCount = {id | store.Live id}.ncard := by
  have isLive : {id | store.Live id} =
      ↑(Finset.range store.slots.size \ store.pool.toFinset) := by
    ext id
    simp only [Set.mem_ofPred_eq, Finset.coe_sdiff, Set.mem_sdiff,
      Finset.mem_coe, Finset.mem_range, List.mem_toFinset,
      pooled.mem_pool_iff]
    constructor
    · intro live
      exact ⟨live.lt_size, fun waits => waits.2 live⟩
    · intro used
      by_contra dead
      exact used.2 ⟨used.1, dead⟩
  have within : store.pool.toFinset ⊆ Finset.range store.slots.size := by
    intro id member
    rw [List.mem_toFinset, pooled.mem_pool_iff] at member
    exact Finset.mem_range.mpr member.1
  rw [isLive, Set.ncard_coe_finset, Finset.card_sdiff_of_subset within,
    Finset.card_range, List.toFinset_card_of_nodup pooled.poolNodup]
  rfl

/-! ## Single slots -/

/-- What holds of every slot. -/
structure Slotted (store : Store) : Prop where
  blank : ∀ (id : Nat) (slot : Slot), store.slots[id]? = some slot →
    slot.live = false → slot.node.transitions = ∅
  target_lt : ∀ (id : Nat) (slot : Slot), store.slots[id]? = some slot →
    ∀ target ∈ slot.node.targets, target < store.slots.size
  serial_le : ∀ (id : Nat) (slot : Slot), store.slots[id]? = some slot →
    slot.serial ≤ store.issued
  serial_inj : ∀ (id other : Nat) (first second : Slot),
    store.slots[id]? = some first → store.slots[other]? = some second →
    first.serial = second.serial → id = other

theorem slotted_new : Slotted {} where
  blank id slot found := by
    simp at found
  target_lt id slot found := by
    simp at found
  serial_le id slot found := by
    simp at found
  serial_inj id other first second found := by
    simp at found

theorem targets_blank : ({} : Node).targets = [] :=
  rfl

/-- A new node has no steps, and its serial number is above all others. -/
theorem Slotted.alloc (slotted : store.Slotted) (pooled : store.Pooled) :
    store.alloc.2.Slotted := by
  have found := slots_alloc pooled
  constructor
  · intro id slot isSlot dead
    rw [found] at isSlot
    split at isSlot
    · cases isSlot
      rfl
    · exact slotted.blank id slot isSlot dead
  · intro id slot isSlot target member
    rw [found] at isSlot
    split at isSlot
    · cases isSlot
      rw [targets_blank] at member
      exact absurd member List.not_mem_nil
    · exact Nat.lt_of_lt_of_le (slotted.target_lt id slot isSlot target member)
        (size_le_alloc store)
  · intro id slot isSlot
    rw [found] at isSlot
    rw [issued_alloc]
    split at isSlot
    · cases isSlot
      exact Nat.le_refl _
    · exact Nat.le_succ_of_le (slotted.serial_le id slot isSlot)
  · intro id other first second isFirst isSecond same
    rw [found] at isFirst isSecond
    split at isFirst
    · rename_i isNew
      cases isFirst
      split at isSecond
      · rename_i otherNew
        exact isNew.trans otherNew.symm
      · have below := slotted.serial_le other second isSecond
        simp only at same
        omega
    · split at isSecond
      · cases isSecond
        have below := slotted.serial_le id first isFirst
        simp only at same
        omega
      · exact slotted.serial_inj id other first second isFirst isSecond same

/-- A change of one slot that keeps its serial number. -/
private theorem Slotted.modify {id : Nat} {change : Slot → Slot}
    (slotted : before.Slotted)
    (slots_eq : after.slots = before.slots.modify id change)
    (issued_eq : after.issued = before.issued)
    (serial_eq : ∀ slot, (change slot).serial = slot.serial)
    (blank : ∀ slot, before.slots[id]? = some slot →
      (change slot).live = false → (change slot).node.transitions = ∅)
    (target_lt : ∀ slot, before.slots[id]? = some slot →
      ∀ target ∈ (change slot).node.targets, target < before.slots.size) :
    after.Slotted := by
  have size_eq : after.slots.size = before.slots.size := by
    rw [slots_eq, Array.size_modify]
  have each : ∀ (other : Nat) (slot : Slot),
      after.slots[other]? = some slot →
      ∃ old, before.slots[other]? = some old ∧ slot.serial = old.serial ∧
        (slot = old ∨ (other = id ∧ slot = change old)) := by
    intro other slot isSlot
    rw [slots_eq, Array.getElem?_modify] at isSlot
    split at isSlot
    · rename_i same
      subst same
      obtain ⟨old, isOld, rfl⟩ := Option.map_eq_some_iff.mp isSlot
      exact ⟨old, isOld, serial_eq old, Or.inr ⟨rfl, rfl⟩⟩
    · exact ⟨slot, isSlot, rfl, Or.inl rfl⟩
  constructor
  · intro other slot isSlot dead
    obtain ⟨old, isOld, _, unchanged | ⟨same, changed⟩⟩ := each other slot isSlot
    · subst unchanged
      exact slotted.blank other slot isOld dead
    · subst same changed
      exact blank old isOld dead
  · intro other slot isSlot target member
    rw [size_eq]
    obtain ⟨old, isOld, _, unchanged | ⟨same, changed⟩⟩ := each other slot isSlot
    · subst unchanged
      exact slotted.target_lt other slot isOld target member
    · subst same changed
      exact target_lt old isOld target member
  · intro other slot isSlot
    obtain ⟨old, isOld, serial, _⟩ := each other slot isSlot
    rw [serial, issued_eq]
    exact slotted.serial_le other old isOld
  · intro first second firstSlot secondSlot isFirst isSecond same
    obtain ⟨firstOld, isFirstOld, firstSerial, _⟩ := each first firstSlot isFirst
    obtain ⟨secondOld, isSecondOld, secondSerial, _⟩ :=
      each second secondSlot isSecond
    rw [firstSerial, secondSerial] at same
    exact slotted.serial_inj first second _ _ isFirstOld isSecondOld same

/-- A change of a node that leaves its table as it is. -/
theorem Slotted.modifyNode (slotted : store.Slotted) (id : Nat)
    {change : Node → Node}
    (sameTable : ∀ node, (change node).transitions = node.transitions) :
    (store.modifyNode id change).Slotted := by
  have changed : (store.modifyNode id change).slots =
      store.slots.modify id fun slot =>
        { slot with node := change slot.node } := rfl
  apply slotted.modify changed rfl
  · intro slot
    rfl
  · intro slot isSlot dead
    exact (sameTable slot.node).trans (slotted.blank id slot isSlot dead)
  · intro slot isSlot target member
    rw [Node.targets, sameTable] at member
    exact slotted.target_lt id slot isSlot target member

/-- A change of a node in use after which it leads to slots. -/
theorem Slotted.modifyLive (slotted : store.Slotted) {id : Nat}
    {change : Node → Node} (live : store.Live id)
    (target_lt : ∀ node, store.node id = .ok node →
      ∀ target ∈ (change node).targets,
        target ∈ node.targets ∨ target < store.slots.size) :
    (store.modifyNode id change).Slotted := by
  obtain ⟨node, found⟩ := live
  obtain ⟨used, isUsed, isLive, sameNode⟩ := (node_eq_ok_iff ..).mp found
  have changed : (store.modifyNode id change).slots =
      store.slots.modify id fun slot =>
        { slot with node := change slot.node } := rfl
  apply slotted.modify changed rfl
  · intro slot
    rfl
  · intro slot isSlot dead
    rw [isUsed] at isSlot
    cases isSlot
    rw [isLive] at dead
    cases dead
  · intro slot isSlot target member
    rw [isUsed] at isSlot
    cases isSlot
    rw [sameNode] at member
    cases target_lt node found target member with
    | inl earlier =>
        rw [← sameNode] at earlier
        exact slotted.target_lt id used isUsed target earlier
    | inr present =>
        exact present

/-- A step that is entered leads to its target, the others lead where they
led. -/
theorem mem_values_or_lt {table : Transitions} {atom : Atom}
    {target next bound : Nat} (present : target < bound)
    (member : next ∈ (table.insert atom target).values) :
    next ∈ table.values ∨ next < bound := by
  obtain ⟨name, isNext⟩ := (AtomMap.mem_values_iff _ _).mp member
  rw [AtomMap.find?_insert] at isNext
  split at isNext
  · cases isNext
    exact Or.inr present
  · exact Or.inl ((AtomMap.mem_values_iff _ _).mpr ⟨name, isNext⟩)

/-- A slot that is put away gets an empty table. -/
theorem Slotted.recycle (slotted : store.Slotted) (id : Nat) :
    (store.recycle id).Slotted := by
  have changed : (store.recycle id).slots =
      store.slots.modify id fun slot =>
        { slot with
          live := false
          node := { slot.node with transitions := ∅ } } := rfl
  apply slotted.modify changed rfl
  · intro slot
    rfl
  · intro slot _ _
    rfl
  · intro slot _ target member
    exact absurd member List.not_mem_nil

theorem Slotted.recycleAll (slotted : store.Slotted) (ids : List Nat) :
    (ids.foldl Store.recycle store).Slotted := by
  induction ids generalizing store with
  | nil =>
      exact slotted
  | cons id ids inductionHypothesis =>
      exact inductionHypothesis (slotted.recycle id)

theorem Slotted.anyNode (slotted : store.Slotted) (pooled : store.Pooled) :
    store.anyNode.2.Slotted := by
  rw [Store.anyNode]
  split
  · exact slotted
  · have made : (store.alloc.2.modifyNode store.alloc.1 fun node =>
        { node with isAny := true, accepting := true }).Slotted :=
      (slotted.alloc pooled).modifyNode store.alloc.1 fun _ => rfl
    exact ⟨made.blank, made.target_lt, made.serial_le, made.serial_inj⟩

theorem Slotted.emptyNode (slotted : store.Slotted) (pooled : store.Pooled) :
    store.emptyNode.2.Slotted := by
  rw [Store.emptyNode]
  split
  · exact slotted
  · have made : (store.alloc.2.modifyNode store.alloc.1 fun node =>
        { node with isEmpty := true, accepting := true }).Slotted :=
      (slotted.alloc pooled).modifyNode store.alloc.1 fun _ => rfl
    exact ⟨made.blank, made.target_lt, made.serial_le, made.serial_inj⟩

end Store

/-! ## Constructions -/

namespace Construction

open Store (Grown Slotted)

variable {κ : Type u} [Ord κ] {base : Store}
  {step : Store → κ → Except Fault (SubsetStep κ)}
  {before after : Construction κ}

/-- The slots of a construction are in order, and it knows keys by nodes in
use. -/
structure Shelved (base : Store) (construction : Construction κ) : Prop where
  grown : Grown base construction.created construction.store
  slotted : construction.store.Slotted
  knownLive : ∀ (key : κ) (id : Nat), construction.known[key]? = some id →
    construction.store.Live id

theorem shelved_start [Std.TransOrd κ] (sound : base.Sound) (slotted : base.Slotted) :
    Shelved base (⟨base, ∅, #[]⟩ : Construction κ) where
  grown := Store.grown_start sound
  slotted := slotted
  knownLive key id isKnown := by
    simp at isKnown

/-- The node that stands for a key is in use. -/
private theorem Finds.live {key : κ} {id : Nat}
    (finds : Finds step key before id after)
    (shelved : Shelved base before) : after.store.Live id := by
  have sound := (finds.grown shelved.grown).sound
  cases finds with
  | known isKnown =>
      exact shelved.knownLive key id isKnown
  | any _ _ =>
      exact sound.anyLive _ (Store.sharedAny_anyNode before.store)
  | empty _ _ =>
      exact sound.emptyLive _ (Store.sharedEmpty_emptyNode before.store)
  | expand _ _ =>
      apply (Store.live_modifyNode_iff ..).mpr
      apply (Store.live_alloc_iff shelved.grown.sound.toPooled _).mpr
      exact Or.inl rfl

section Meeting

variable [Std.TransOrd κ] [Std.LawfulEqOrd κ]

theorem Finds.shelved {key : κ} {id : Nat}
    (finds : Finds step key before id after)
    (shelved : Shelved base before) : Shelved base after := by
  refine ⟨finds.grown shelved.grown, ?_, ?_⟩
  · have pooled := shelved.grown.sound.toPooled
    cases finds with
    | known _ =>
        exact shelved.slotted
    | any _ _ =>
        exact shelved.slotted.anyNode pooled
    | empty _ _ =>
        exact shelved.slotted.emptyNode pooled
    | @expand accepting _ _ _ =>
        change (before.store.alloc.2.modifyNode before.store.alloc.1
          fun node => { node with accepting }).Slotted
        exact (shelved.slotted.alloc pooled).modifyNode _ fun _ => rfl
  · intro other found isKnown
    rcases (finds.known_iff other found).mp isKnown with ⟨_, same⟩ | earlier
    · exact same ▸ finds.live shelved
    · have further := finds.further shelved.grown.sound
      exact further.keeps.live (shelved.knownLive other found earlier)

theorem keptByEdges_shelved (base : Store)
    (step : Store → κ → Except Fault (SubsetStep κ)) :
    KeptByEdges step (Shelved base) := by
  intro before found key source target atom shelved waits finds
  have foundShelved := finds.shelved shelved
  have sourceMember := (finds.waits waits).mem_created
  have sourceLive : found.store.Live source := by
    obtain ⟨node, isNode, _⟩ := foundShelved.grown.ordinary source sourceMember
    exact ⟨node, isNode⟩
  constructor
  · exact grown_enter foundShelved.grown sourceMember
  · change (found.store.modifyNode source fun node =>
      { node with
        transitions := node.transitions.insert atom target }).Slotted
    apply foundShelved.slotted.modifyLive sourceLive
    intro node _ next isNext
    exact Store.mem_values_or_lt (finds.live shelved).lt_size isNext
  · intro other id isKnown
    exact (Store.live_modifyNode_iff ..).mpr
      (foundShelved.knownLive other id isKnown)

end Meeting

end Construction

namespace Store

variable {store after : Store}

/-- Whatever the steps are, a construction keeps the slots in order. -/
theorem Slotted.determinize {κ : Type u} [Ord κ] [Std.TransOrd κ]
    [Std.LawfulEqOrd κ] (slotted : store.Slotted) (sound : store.Sound)
    {start : κ} {step : Store → κ → Except Fault (SubsetStep κ)}
    {result : Except StateLimitExceeded Nat}
    (isAfter : store.determinize start step = .ok (result, after)) :
    after.Slotted := by
  obtain ⟨construction, shelved, isEnd⟩ := exists_of_determinize
    (fun _ _ finds =>
      finds.shelved (Construction.shelved_start sound slotted))
    (Construction.keptByEdges_shelved store step) isAfter
  cases isEnd with
  | inl stays =>
      exact stays.2 ▸ shelved.slotted
  | inr givenBack =>
      have taken := shelved.slotted.recycleAll construction.created
      rw [Construction.created, List.foldl_map] at taken
      rw [givenBack.2, Construction.abandon, ← Array.foldl_toList]
      exact taken

/-! ## Whole runs -/

theorem Reached.slotted (reached : store.Reached) : store.Slotted := by
  induction reached with
  | new =>
      exact slotted_new
  | setStateLimit limit _ slotted =>
      exact ⟨slotted.blank, slotted.target_lt, slotted.serial_le,
        slotted.serial_inj⟩
  | alloc earlier slotted =>
      exact slotted.alloc earlier.sound.toPooled
  | free _ isAfter slotted =>
      obtain ⟨_, same⟩ := free_eq_ok_iff.mp isAfter
      exact same ▸ slotted.recycle _
  | release _ isAfter slotted =>
      obtain ⟨owned, _, _, same⟩ := exists_owned_of_release isAfter
      exact same ▸ slotted.recycleAll owned
  | setAccepting _ isAfter slotted =>
      rw [(eq_of_setAccepting isAfter).2]
      exact slotted.modifyNode _ fun _ => rfl
  | setTransition _ isAfter slotted =>
      obtain ⟨node, isNode, targetLive, same⟩ := eq_of_setTransition isAfter
      rw [same]
      apply slotted.modifyLive ⟨node, isNode⟩
      intro other isOther next isNext
      rw [isNode] at isOther
      cases isOther
      exact mem_values_or_lt targetLive.lt_size isNext
  | anyNode earlier slotted =>
      exact slotted.anyNode earlier.sound.toPooled
  | emptyNode earlier slotted =>
      exact slotted.emptyNode earlier.sound.toPooled
  | determinize earlier isAfter slotted =>
      exact slotted.determinize earlier.sound isAfter
  | merge earlier isAfter slotted =>
      rcases determinize_of_merge isAfter with same | ⟨_, _, isResult⟩
      · exact same ▸ slotted
      · exact slotted.determinize earlier.sound isResult
  | compile earlier isAfter slotted =>
      obtain ⟨_, _, isResult⟩ := determinize_of_compile isAfter
      exact slotted.determinize earlier.sound isResult
  | compileModel earlier isAfter slotted =>
      obtain ⟨_, _, isResult⟩ := determinize_of_compileModel isAfter
      exact slotted.determinize earlier.sound isResult

/-- The slots, the pool and the shared nodes of a store are in order. -/
structure InOrder (store : Store) : Prop where
  poolNodup : store.pool.Nodup
  /-- The pool has the slots that are not in use. -/
  mem_pool_iff :
    ∀ id, id ∈ store.pool ↔ id < store.slots.size ∧ ¬ store.Live id
  liveCount_eq : store.liveCount = {id | store.Live id}.ncard
  /-- The table of a slot that is not in use is empty. -/
  blank : ∀ (id : Nat) (slot : Slot), store.slots[id]? = some slot →
    slot.live = false → slot.node.transitions = ∅
  isAny_iff : ∀ id node, store.node id = .ok node →
    (node.isAny = true ↔ store.sharedAny = some id)
  isEmpty_iff : ∀ id node, store.node id = .ok node →
    (node.isEmpty = true ↔ store.sharedEmpty = some id)
  notBoth : ∀ id node, store.node id = .ok node →
    ¬ (node.isAny = true ∧ node.isEmpty = true)
  sharedApart : ∀ id, store.sharedAny = some id →
    store.sharedEmpty ≠ some id
  /-- Every step leads to a slot. -/
  target_lt : ∀ (id : Nat) (slot : Slot), store.slots[id]? = some slot →
    ∀ target ∈ slot.node.targets, target < store.slots.size
  ascending : ∀ (id : Nat) (slot : Slot), store.slots[id]? = some slot →
    slot.node.transitions.entries.Pairwise fun left right =>
      left.1.name < right.1.name
  /-- No two slots have the same serial number. -/
  serial_inj : ∀ (id other : Nat) (first second : Slot),
    store.slots[id]? = some first → store.slots[other]? = some second →
    first.serial = second.serial → id = other

/-- Whatever operations made a store, its slots are in order. -/
theorem Reached.inOrder (reached : store.Reached) : store.InOrder where
  poolNodup := reached.sound.poolNodup
  mem_pool_iff := reached.sound.mem_pool_iff
  liveCount_eq := reached.sound.toPooled.liveCount_eq
  blank := reached.slotted.blank
  isAny_iff := reached.sound.isAny_iff
  isEmpty_iff := reached.sound.isEmpty_iff
  notBoth _ _ found := reached.sound.notBoth found
  sharedApart := reached.sound.apart
  target_lt := reached.slotted.target_lt
  ascending _ slot _ := slot.node.transitions.ascending
  serial_inj := reached.slotted.serial_inj

/-- A node that leads to the node that accepts everything. -/
def stepToAny : Store where
  slots :=
    #[⟨1, true, { transitions := AtomMap.insert ∅ (.ofElement "a") 1 }⟩,
      ⟨2, true, freshAny⟩]
  sharedAny := some 1
  issued := 2

theorem inOrder_stepToAny_free :
    ∃ freed, stepToAny.free 1 = .ok freed ∧ freed.Reached ∧
      freed.pool = [1] ∧ freed.InOrder := by
  have made : (Store.alloc {}).2.anyNode.2.Reached :=
    Reached.anyNode (Reached.alloc Reached.new)
  have isLinked : (Store.alloc {}).2.anyNode.2.setTransition 0
      (.ofElement "a") 1 = .ok (none, stepToAny) := rfl
  have isFreed : stepToAny.free 1 = .ok (stepToAny.recycle 1) := rfl
  have reached := Reached.free (Reached.setTransition made isLinked) isFreed
  exact ⟨_, isFreed, reached, rfl, reached.inOrder⟩

end Store

end ContentModel.Automaton
