import ContentModel.Proofs.Automaton.Store

/-!
# Stores that grow

A construction adds nodes and leaves those that are in use as they are. What it
added can be taken away again.
-/

namespace ContentModel.Automaton.Store

variable {base before middle after : Store} {created : List Nat}

/-- Every node in use stays in use and stays the same. -/
def Keeps (before after : Store) : Prop :=
  ∀ id node, before.node id = .ok node → after.node id = .ok node

theorem Keeps.refl (store : Store) : Keeps store store :=
  fun _ _ found => found

theorem Keeps.trans (first : Keeps before middle)
    (second : Keeps middle after) : Keeps before after :=
  fun id node found => second id node (first id node found)

theorem Keeps.live (keeps : Keeps before after) {id : Nat}
    (live : before.Live id) : after.Live id := by
  obtain ⟨node, found⟩ := live
  exact ⟨node, keeps id node found⟩

theorem Keeps.sharedAny (keeps : Keeps before after)
    (beforeSound : before.Sound) (afterSound : after.Sound) {id : Nat}
    (shared : before.sharedAny = some id) : after.sharedAny = some id := by
  obtain ⟨node, found⟩ := beforeSound.anyLive id shared
  have isAny := (beforeSound.any_iff id node found).mpr shared
  exact (afterSound.any_iff id node (keeps id node found)).mp isAny

theorem Keeps.sharedEmpty (keeps : Keeps before after)
    (beforeSound : before.Sound) (afterSound : after.Sound) {id : Nat}
    (shared : before.sharedEmpty = some id) :
    after.sharedEmpty = some id := by
  obtain ⟨node, found⟩ := beforeSound.emptyLive id shared
  have isEmpty := (beforeSound.empty_iff id node found).mpr shared
  exact (afterSound.empty_iff id node (keeps id node found)).mp isEmpty

theorem Introduces.keeps {id : Nat} {node : Node}
    (introduces : Introduces before id node after) : Keeps before after := by
  intro other found isFound
  rw [introduces.node_eq, if_neg]
  · exact isFound
  · rintro rfl
    exact introduces.isNew ⟨found, isFound⟩

/-- Nodes of their own in `created` were added to `base`, and the shared nodes
if they were missing; nothing else changed. -/
structure Grown (base : Store) (created : List Nat) (after : Store) :
    Prop where
  sound : after.Sound
  keeps : Keeps base after
  nodup : created.Nodup
  isNew : ∀ id ∈ created, ¬ base.Live id
  ordinary : ∀ id ∈ created,
    ∃ node, after.node id = .ok node ∧ node.role = .ordinary
  live : ∀ id, after.Live id →
    base.Live id ∨ id ∈ created ∨ after.isShared id = true
  newAny : base.sharedAny = none → ∀ id, after.sharedAny = some id →
    after.node id = .ok freshAny
  newEmpty : base.sharedEmpty = none → ∀ id, after.sharedEmpty = some id →
    after.node id = .ok freshEmpty
  stateLimit_eq : after.stateLimit = base.stateLimit

theorem grown_start (sound : base.Sound) : Grown base [] base where
  sound := sound
  keeps := Keeps.refl base
  nodup := List.nodup_nil
  isNew _ impossible := absurd impossible List.not_mem_nil
  ordinary _ impossible := absurd impossible List.not_mem_nil
  live _ isLive := Or.inl isLive
  newAny missing id shared := by
    rw [missing] at shared
    cases shared
  newEmpty missing id shared := by
    rw [missing] at shared
    cases shared
  stateLimit_eq := rfl

theorem isShared_iff (store : Store) (id : Nat) :
    store.isShared id = true ↔
      store.sharedAny = some id ∨ store.sharedEmpty = some id := by
  simp only [isShared, Bool.or_eq_true, beq_iff_eq]

namespace Grown

/-- The shared node that accepts everything is as first made, or was shared
before. -/
theorem sharedAny_cases (baseSound : base.Sound)
    (grown : Grown base created after) {id : Nat}
    (shared : after.sharedAny = some id) :
    after.node id = .ok freshAny ∨ base.sharedAny = some id := by
  cases earlier : base.sharedAny with
  | none =>
      exact Or.inl (grown.newAny earlier id shared)
  | some other =>
      rw [grown.keeps.sharedAny baseSound grown.sound earlier] at shared
      exact Or.inr shared

/-- The same for the shared node that accepts the empty word alone. -/
theorem sharedEmpty_cases (baseSound : base.Sound)
    (grown : Grown base created after) {id : Nat}
    (shared : after.sharedEmpty = some id) :
    after.node id = .ok freshEmpty ∨ base.sharedEmpty = some id := by
  cases earlier : base.sharedEmpty with
  | none =>
      exact Or.inl (grown.newEmpty earlier id shared)
  | some other =>
      rw [grown.keeps.sharedEmpty baseSound grown.sound earlier] at shared
      exact Or.inr shared

theorem notShared (grown : Grown base created after) {id : Nat}
    (member : id ∈ created) : after.isShared id = false := by
  obtain ⟨node, found, ordinary⟩ := grown.ordinary id member
  rw [← Bool.not_eq_true, grown.sound.isShared_iff found]
  exact fun hasRole => hasRole ordinary

private theorem introduces_live {id : Nat} {node : Node}
    (grown : Grown base created before)
    (introduces : Introduces before id node after) {other : Nat}
    (isLive : after.Live other) (different : other ≠ id) :
    base.Live other ∨ other ∈ created ∨ after.isShared other = true := by
  have wasLive := ((introduces.live_iff other).mp isLive).resolve_left
    different
  rcases grown.live other wasLive with old | isCreated | wasShared
  · exact Or.inl old
  · exact Or.inr (Or.inl isCreated)
  · refine Or.inr (Or.inr ?_)
    obtain ⟨found, isFound⟩ := wasLive
    rw [grown.sound.isShared_iff isFound] at wasShared
    rwa [(introduces.sound grown.sound).isShared_iff
      (introduces.keeps other found isFound)]

private theorem introduces_notBase {id : Nat} {node : Node}
    (grown : Grown base created before)
    (introduces : Introduces before id node after) : ¬ base.Live id :=
  fun live => introduces.isNew (grown.keeps.live live)

/-- A new node of its own. -/
theorem create {id : Nat} {node : Node}
    (grown : Grown base created before)
    (introduces : Introduces before id node after)
    (ordinary : node.role = .ordinary) :
    Grown base (created ++ [id]) after := by
  have keeps := introduces.keeps
  have isNode : after.node id = .ok node := by
    rw [introduces.node_eq, if_pos rfl]
  constructor
  · exact introduces.sound grown.sound
  · exact grown.keeps.trans keeps
  · apply grown.nodup.append (List.nodup_singleton id)
    intro other member isLast
    rw [List.mem_singleton.mp isLast] at member
    obtain ⟨found, isFound, _⟩ := grown.ordinary id member
    exact introduces.isNew ⟨found, isFound⟩
  · intro other member
    rcases List.mem_append.mp member with earlier | isLast
    · exact grown.isNew other earlier
    · rw [List.mem_singleton.mp isLast]
      exact introduces_notBase grown introduces
  · intro other member
    rcases List.mem_append.mp member with earlier | isLast
    · obtain ⟨found, isFound, isOrdinary⟩ := grown.ordinary other earlier
      exact ⟨found, keeps other found isFound, isOrdinary⟩
    · rw [List.mem_singleton.mp isLast]
      exact ⟨node, isNode, ordinary⟩
  · intro other isLive
    by_cases same : other = id
    · subst same
      exact Or.inr (Or.inl (List.mem_append_right _ (List.mem_singleton_self _)))
    · rcases introduces_live grown introduces isLive same with
        old | isCreated | isShared
      · exact Or.inl old
      · exact Or.inr (Or.inl (List.mem_append_left _ isCreated))
      · exact Or.inr (Or.inr isShared)
  · intro missing other shared
    rw [introduces.sharedAny_eq, ordinary] at shared
    exact keeps other _ (grown.newAny missing other shared)
  · intro missing other shared
    rw [introduces.sharedEmpty_eq, ordinary] at shared
    exact keeps other _ (grown.newEmpty missing other shared)
  · rw [introduces.stateLimit_eq, grown.stateLimit_eq]

/-- A new shared node. -/
private theorem share {id : Nat} {node : Node}
    (grown : Grown base created before)
    (introduces : Introduces before id node after)
    (hasRole : node.role ≠ .ordinary)
    (isFreshAny : node.role = .any → node = freshAny)
    (isFreshEmpty : node.role = .empty → node = freshEmpty) :
    Grown base created after := by
  have keeps := introduces.keeps
  have sound := introduces.sound grown.sound
  have isNode : after.node id = .ok node := by
    rw [introduces.node_eq, if_pos rfl]
  constructor
  · exact sound
  · exact grown.keeps.trans keeps
  · exact grown.nodup
  · exact grown.isNew
  · intro other member
    obtain ⟨found, isFound, isOrdinary⟩ := grown.ordinary other member
    exact ⟨found, keeps other found isFound, isOrdinary⟩
  · intro other isLive
    by_cases same : other = id
    · subst same
      exact Or.inr (Or.inr ((sound.isShared_iff isNode).mpr hasRole))
    · exact introduces_live grown introduces isLive same
  · intro missing other shared
    rw [introduces.sharedAny_eq] at shared
    split at shared
    · rename_i isAny
      cases shared
      rw [isNode, isFreshAny isAny]
    · exact keeps other _ (grown.newAny missing other shared)
  · intro missing other shared
    rw [introduces.sharedEmpty_eq] at shared
    split at shared
    · rename_i isEmpty
      cases shared
      rw [isNode, isFreshEmpty isEmpty]
    · exact keeps other _ (grown.newEmpty missing other shared)
  · rw [introduces.stateLimit_eq, grown.stateLimit_eq]

theorem anyNode (grown : Grown base created before) :
    Grown base created before.anyNode.2 := by
  cases present : before.sharedAny with
  | some id =>
      rw [anyNode_of_some present]
      exact grown
  | none =>
      exact grown.share
        (introduces_anyNode grown.sound.toPooled present) (by decide)
        (fun _ => rfl) (fun impossible => nomatch impossible)

theorem emptyNode (grown : Grown base created before) :
    Grown base created before.emptyNode.2 := by
  cases present : before.sharedEmpty with
  | some id =>
      rw [emptyNode_of_some present]
      exact grown
  | none =>
      exact grown.share
        (introduces_emptyNode grown.sound.toPooled present) (by decide)
        (fun impossible => nomatch impossible) (fun _ => rfl)

/-- A change of a node that was added. -/
theorem modifyNode (grown : Grown base created before) {id : Nat}
    (member : id ∈ created) (change : Node → Node)
    (sameFlags : ∀ node, (change node).isAny = node.isAny ∧
      (change node).isEmpty = node.isEmpty) :
    Grown base created (before.modifyNode id change) := by
  have notShared := grown.notShared member
  have elsewhere : ∀ other node, other ≠ id →
      before.node other = .ok node →
      (before.modifyNode id change).node other = .ok node := by
    intro other node different found
    rw [node_modifyNode, if_neg different]
    exact found
  have sharedStays : ∀ other node, before.isShared other = true →
      before.node other = .ok node →
      (before.modifyNode id change).node other = .ok node := by
    intro other node isShared found
    refine elsewhere other node ?_ found
    rintro rfl
    rw [notShared] at isShared
    cases isShared
  constructor
  · exact grown.sound.modifyNode sameFlags
  · intro other node found
    refine elsewhere other node ?_ (grown.keeps other node found)
    rintro rfl
    exact grown.isNew other member ⟨node, found⟩
  · exact grown.nodup
  · exact grown.isNew
  · intro other isCreated
    obtain ⟨node, found, ordinary⟩ := grown.ordinary other isCreated
    rw [node_modifyNode]
    by_cases same : other = id
    · subst same
      rw [if_pos rfl, found]
      exact ⟨change node, rfl, (Node.role_congr (sameFlags node)).trans ordinary⟩
    · rw [if_neg same]
      exact ⟨node, found, ordinary⟩
  · intro other isLive
    exact grown.live other ((live_modifyNode_iff ..).mp isLive)
  · intro missing other shared
    exact sharedStays other _
      ((isShared_iff before other).mpr (Or.inl shared))
      (grown.newAny missing other shared)
  · intro missing other shared
    exact sharedStays other _
      ((isShared_iff before other).mpr (Or.inr shared))
      (grown.newEmpty missing other shared)
  · exact grown.stateLimit_eq

/-- A node that was added may be put away. -/
private theorem recycle {id : Nat}
    (grown : Grown base (id :: created) before) :
    Grown base created (before.recycle id) := by
  obtain ⟨node, isNode, isOrdinary⟩ := grown.ordinary id List.mem_cons_self
  have live : before.Live id := ⟨node, isNode⟩
  have notShared := grown.notShared List.mem_cons_self
  obtain ⟨notLater, nodup⟩ := List.nodup_cons.mp grown.nodup
  have elsewhere : ∀ other node, other ≠ id →
      before.node other = .ok node →
      (before.recycle id).node other = .ok node := by
    intro other node different found
    rw [node_recycle live, if_neg different]
    exact found
  rw [← Bool.not_eq_true, isShared_iff, not_or] at notShared
  obtain ⟨notAny, notEmpty⟩ := notShared
  have sameAny : (before.recycle id).sharedAny = before.sharedAny :=
    if_neg notAny
  have sameEmpty : (before.recycle id).sharedEmpty = before.sharedEmpty :=
    if_neg notEmpty
  constructor
  · exact grown.sound.recycle live
  · intro other node found
    refine elsewhere other node ?_ (grown.keeps other node found)
    rintro rfl
    exact grown.isNew other List.mem_cons_self ⟨node, found⟩
  · exact nodup
  · exact fun other member =>
      grown.isNew other (List.mem_cons_of_mem id member)
  · intro other member
    obtain ⟨node, found, ordinary⟩ :=
      grown.ordinary other (List.mem_cons_of_mem id member)
    refine ⟨node, elsewhere other node ?_ found, ordinary⟩
    rintro rfl
    exact notLater member
  · intro other isLive
    obtain ⟨different, wasLive⟩ := (live_recycle_iff live other).mp isLive
    rcases grown.live other wasLive with old | isCreated | isShared
    · exact Or.inl old
    · exact Or.inr (Or.inl ((List.mem_cons.mp isCreated).resolve_left
        different))
    · refine Or.inr (Or.inr ?_)
      rw [isShared_iff] at isShared ⊢
      rwa [sameAny, sameEmpty]
  · intro missing other shared
    rw [sameAny] at shared
    refine elsewhere other _ ?_ (grown.newAny missing other shared)
    rintro rfl
    exact notAny shared
  · intro missing other shared
    rw [sameEmpty] at shared
    refine elsewhere other _ ?_ (grown.newEmpty missing other shared)
    rintro rfl
    exact notEmpty shared
  · exact grown.stateLimit_eq

/-- What was added can be taken away again, but for the shared nodes. -/
theorem recycleAll (grown : Grown base created before) :
    Grown base [] (created.foldl Store.recycle before) := by
  induction created generalizing before with
  | nil =>
      exact grown
  | cons id rest inductionHypothesis =>
      exact inductionHypothesis grown.recycle

end Grown

end ContentModel.Automaton.Store
