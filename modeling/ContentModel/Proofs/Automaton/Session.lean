import ContentModel.Proofs.Automaton.Slots
import ContentModel.Proofs.Automaton.Ownership

/-!
# Sessions

A client asks a store for automata, takes unions of automata that it holds and
releases them, in any order. Main statement: no call fails, what the client
holds stays as it was returned, and every node in use belongs to exactly one of
the automata that are held or is shared (`Arises.undisturbed`).
-/

namespace ContentModel.Automaton

open Store

/-- An automaton that a client holds, with what it accepted when it was
returned. -/
structure Held where
  start : Nat
  language : Language String

/-- A store and what its client holds. -/
structure Session where
  store : Store := {}
  held : List Held := []

namespace Session

def Holds (session : Session) (start : Nat) : Prop :=
  ∃ held ∈ session.held, held.start = start

/-- The session after a call returned. -/
def receive (session : Session) :
    Except StateLimitExceeded Nat × Store → Session
  | (.ok start, store) =>
    ⟨store, ⟨start, store.reader.language start⟩ :: session.held⟩
  | (.error _, store) => ⟨store, session.held⟩

/-! ## Calls -/

/-- A call of the client. -/
inductive Call where
  | setStateLimit (limit : Nat)
  | compileModel (model : Model)
  | merge (left right : Nat)
  | anyNode
  | emptyNode
  | release (start : Nat)

namespace Call

/-- The client uses only what it holds. -/
def Allowed (session : Session) : Call → Prop
  | compileModel model => model.BoundsOrdered
  | merge left right =>
    left ≠ right ∧ session.Holds left ∧ session.Holds right
  | release start => session.Holds start
  | setStateLimit _ | anyNode | emptyNode => True

/-- What the call does. What was released is no longer held; a shared node is
not freed by a release, and may go on to be held. -/
def apply (session : Session) : Call → Except Fault Session
  | setStateLimit limit =>
    return { session with
      store := { session.store with stateLimit := limit } }
  | compileModel model =>
    return session.receive (← session.store.compileModel model)
  | merge left right =>
    return session.receive (← session.store.merge left right)
  | anyNode =>
    let (start, store) := session.store.anyNode
    return session.receive (.ok start, store)
  | emptyNode =>
    let (start, store) := session.store.emptyNode
    return session.receive (.ok start, store)
  | release start => do
    let (_, store) ← session.store.release start
    let stays (held : Held) : Bool :=
      session.store.isShared held.start || held.start != start
    return ⟨store, session.held.filter stays⟩

end Call

/-- The session arises from a new one by calls that a client may make. -/
inductive Arises : Session → Prop
  | new : Arises {}
  | call {session after : Session} {call : Call} :
      Arises session → call.Allowed session →
      call.apply session = .ok after → Arises after

/-! ## Separate automata -/

/-- What is held is in use, accepts what it did when it was returned, and has no
node in common but shared ones. -/
structure Separate (session : Session) : Prop where
  sound : session.store.Sound
  standard : session.store.Standard
  intact : ∀ held ∈ session.held, session.store.Intact held.start
  accepts : ∀ held ∈ session.held,
    session.store.Accepts held.start held.language
  apart : session.held.Pairwise fun first second =>
    Disjoint (session.store.ownNodes first.start)
      (session.store.ownNodes second.start)

/-- Moreover every node in use is shared or belongs to what is held. -/
structure Orderly (session : Session) : Prop extends Separate session where
  owned : ∀ id, session.store.Live id →
    session.store.isShared id = true ∨
      ∃ held ∈ session.held, id ∈ session.store.ownNodes held.start

variable {session after : Session} {store : Store} {rest : List Held}

theorem orderly_new : Orderly {} where
  sound := sound_new
  standard := standard_new
  intact _ member := absurd member List.not_mem_nil
  accepts _ member := absurd member List.not_mem_nil
  apart := List.Pairwise.nil
  owned id live := absurd live.lt_size (Nat.not_lt_zero id)

namespace Separate

/-- As long as the nodes stay that some of what is held reaches, so does what is
said of it. -/
theorem frame (separate : session.Separate) (sound : store.Sound)
    (standard : store.Standard) (fewer : rest.Sublist session.held)
    (kept : ∀ held ∈ rest, ∀ id, session.store.Reaches held.start id →
      ∀ node, session.store.node id = .ok node → store.node id = .ok node) :
    Separate ⟨store, rest⟩ ∧
      ∀ held ∈ rest, store.ownNodes held.start =
        session.store.ownNodes held.start := by
  have intact : ∀ held ∈ rest, session.store.Intact held.start :=
    fun held member => separate.intact held (fewer.subset member)
  have sameOwn : ∀ held ∈ rest, store.ownNodes held.start =
      session.store.ownNodes held.start :=
    fun held member => (intact held member).ownNodes_eq (kept held member)
      separate.sound sound
  refine ⟨⟨sound, standard, ?_, ?_, ?_⟩, sameOwn⟩
  · intro held member
    exact (intact held member).frame (kept held member)
  · intro held member
    exact (intact held member).accepts (kept held member)
      (separate.accepts held (fewer.subset member))
  · have apart := separate.apart.sublist fewer
    refine apart.imp_of_mem ?_
    intro first second isFirst isSecond disjoint
    rw [sameOwn first isFirst, sameOwn second isSecond]
    exact disjoint

end Separate

namespace Orderly

/-! ### Growth -/

section Grown

variable {created : List Nat} (orderly : session.Orderly)
  (grown : session.store.Grown created store)

include orderly grown

/-- What is held is not touched by nodes that are added. -/
theorem grow : Separate ⟨store, session.held⟩ ∧
    ∀ held ∈ session.held, store.ownNodes held.start =
      session.store.ownNodes held.start := by
  apply orderly.frame grown.sound
    (grown.standard orderly.sound orderly.standard)
    (List.Sublist.refl session.held)
  intro held _ id _ node found
  exact grown.keeps id node found

/-- A node in use was added, or else it is shared or belongs to what was held
before. -/
theorem owned_of_grown {id : Nat} (live : store.Live id) :
    id ∈ created ∨ store.isShared id = true ∨
      ∃ held ∈ session.held, id ∈ session.store.ownNodes held.start := by
  rcases grown.live id live with wasLive | isNew | shared
  · obtain ⟨node, found⟩ := wasLive
    rw [orderly.sound.isShared_congr grown.sound found
      (grown.keeps id node found)]
    exact Or.inr (orderly.owned id ⟨node, found⟩)
  · exact Or.inl isNew
  · exact Or.inr (Or.inl shared)

end Grown

/-- A call that returns leaves the session in order. -/
theorem receive (orderly : session.Orderly)
    {result : Except StateLimitExceeded Nat}
    (returns : session.store.Returns result store) :
    (session.receive (result, store)).Orderly := by
  cases returns with
  | failure grown =>
      obtain ⟨separate, sameOwn⟩ := orderly.grow grown
      refine ⟨separate, ?_⟩
      intro id live
      rcases orderly.owned_of_grown grown live with
        isNew | shared | ⟨held, member, own⟩
      · exact absurd isNew List.not_mem_nil
      · exact Or.inl shared
      · rw [← sameOwn held member] at own
        exact Or.inr ⟨held, member, own⟩
  | @automaton start created _ grown intact own_iff =>
      obtain ⟨separate, sameOwn⟩ := orderly.grow grown
      have apart : ∀ held ∈ session.held,
          Disjoint (store.ownNodes start) (store.ownNodes held.start) := by
        intro held member
        rw [sameOwn held member]
        apply Set.disjoint_left.mpr
        intro id isNew own
        exact grown.isNew id ((own_iff id).mp isNew)
          (orderly.intact held member id own.1)
      refine ⟨⟨grown.sound, separate.standard, ?_, ?_, ?_⟩, ?_⟩
      · exact List.forall_mem_cons.mpr ⟨intact, separate.intact⟩
      · exact List.forall_mem_cons.mpr
          ⟨intact.accepts_language, separate.accepts⟩
      · exact List.Pairwise.cons apart separate.apart
      · intro id live
        rcases orderly.owned_of_grown grown live with
          isNew | shared | ⟨held, member, own⟩
        · exact Or.inr ⟨_, List.mem_cons_self, (own_iff id).mpr isNew⟩
        · exact Or.inl shared
        · rw [← sameOwn held member] at own
          exact Or.inr ⟨held, List.mem_cons_of_mem _ member, own⟩

/-! ### Releases -/

/-- What is held apart from the released automaton does not reach its nodes. -/
theorem not_own_of_reaches (orderly : session.Orderly) {released : Held}
    (isHeld : released ∈ session.held) {held : Held}
    (member : held ∈ session.held)
    (stays : session.store.isShared held.start = true ∨
      held.start ≠ released.start)
    {id : Nat} (reaches : session.store.Reaches held.start id) :
    id ∉ session.store.ownNodes released.start := by
  apply Store.not_own_of_reaches _ reaches
  cases stays with
  | inl shared =>
      rw [orderly.standard.ownNodes_eq_empty shared]
      exact Set.empty_disjoint _
  | inr different =>
      have symmetric : Std.Symm fun first second : Held =>
          Disjoint (session.store.ownNodes first.start)
            (session.store.ownNodes second.start) :=
        ⟨fun _ _ disjoint => disjoint.symm⟩
      exact orderly.apart.forall member isHeld
        fun same => different (congrArg Held.start same)

theorem release (orderly : session.Orderly) {start : Nat}
    (holds : session.Holds start) :
    ∃ after, (Call.release start).apply session = .ok after ∧
      after.Orderly := by
  obtain ⟨released, isHeld, rfl⟩ := holds
  obtain ⟨count, store, result, sound, standard, live_iff, kept⟩ :=
    (orderly.intact released isHeld).release orderly.sound orderly.standard
  let stays (held : Held) : Bool :=
    session.store.isShared held.start || held.start != released.start
  have stays_iff : ∀ held, stays held = true ↔
      session.store.isShared held.start = true ∨
        held.start ≠ released.start := by
    intro held
    simp only [stays, Bool.or_eq_true, bne_iff_ne]
  have keptNodes : ∀ held ∈ session.held.filter stays, ∀ id,
      session.store.Reaches held.start id → ∀ node,
      session.store.node id = .ok node → store.node id = .ok node := by
    intro held member id reaches
    obtain ⟨wasHeld, isStaying⟩ := List.mem_filter.mp member
    exact kept id (orderly.not_own_of_reaches isHeld wasHeld
      ((stays_iff held).mp isStaying) reaches)
  obtain ⟨separate, sameOwn⟩ :=
    orderly.frame sound standard List.filter_sublist keptNodes
  refine ⟨⟨store, session.held.filter stays⟩, ?_, separate, ?_⟩
  · rw [Call.apply, result]
    rfl
  · intro id live
    obtain ⟨⟨node, found⟩, notOwn⟩ := (live_iff id).mp live
    rw [orderly.sound.isShared_congr sound found (kept id notOwn node found)]
    cases orderly.owned id ⟨node, found⟩ with
    | inl shared =>
        exact Or.inl shared
    | inr belongs =>
        obtain ⟨held, member, own⟩ := belongs
        have different : held.start ≠ released.start := by
          intro same
          rw [same] at own
          exact notOwn own
        have remains : held ∈ session.held.filter stays :=
          List.mem_filter.mpr ⟨member, (stays_iff held).mpr (Or.inr different)⟩
        rw [← sameOwn held remains] at own
        exact Or.inr ⟨held, remains, own⟩

/-! ### Single calls -/

/-- A call that a client may make does not fail and leaves the session in
order. -/
theorem apply (orderly : session.Orderly) {call : Call}
    (allowed : call.Allowed session) :
    ∃ after, call.apply session = .ok after ∧ after.Orderly := by
  cases call with
  | setStateLimit limit =>
      refine ⟨_, rfl, ?_⟩
      have same := orderly.frame (orderly.sound.setStateLimit limit)
        ⟨orderly.standard.any, orderly.standard.empty⟩
        (List.Sublist.refl session.held) fun _ _ _ _ _ found => found
      exact ⟨same.1, orderly.owned⟩
  | compileModel model =>
      obtain ⟨result, store, isResult, returns⟩ :=
        compileModel_returns orderly.sound orderly.standard allowed
      refine ⟨_, ?_, orderly.receive returns⟩
      rw [Call.apply, isResult]
      rfl
  | merge left right =>
      obtain ⟨different, ⟨first, isFirst, rfl⟩, ⟨second, isSecond, rfl⟩⟩ :=
        allowed
      obtain ⟨result, store, isResult, returns⟩ :=
        merge_returns orderly.sound orderly.standard
          (orderly.intact first isFirst) (orderly.intact second isSecond)
          different
      refine ⟨_, ?_, orderly.receive returns⟩
      rw [Call.apply, isResult]
      rfl
  | anyNode =>
      exact ⟨_, rfl, orderly.receive
        (anyNode_returns orderly.sound orderly.standard)⟩
  | emptyNode =>
      exact ⟨_, rfl, orderly.receive
        (emptyNode_returns orderly.sound orderly.standard)⟩
  | release start =>
      exact orderly.release allowed

end Orderly

/-! ## Counting -/

/-- Sets with no element in common are counted one after the other. -/
theorem ncard_of_pairwise_disjoint {parts : Held → Set Nat}
    {bound : Set Nat} (finite : bound.Finite) {list : List Held}
    (bounded : ∀ held ∈ list, parts held ⊆ bound)
    (apart : list.Pairwise fun first second =>
      Disjoint (parts first) (parts second)) :
    {id | ∃ held ∈ list, id ∈ parts held}.ncard =
      (list.map fun held => (parts held).ncard).sum := by
  induction list with
  | nil =>
      simp
  | cons first rest inductionHypothesis =>
      obtain ⟨firstApart, restApart⟩ := List.pairwise_cons.mp apart
      have restBounded := fun held member =>
        bounded held (List.mem_cons_of_mem first member)
      have split : {id | ∃ held ∈ first :: rest, id ∈ parts held} =
          parts first ∪ {id | ∃ held ∈ rest, id ∈ parts held} := by
        ext id
        simp
      have disjoint : Disjoint (parts first)
          {id | ∃ held ∈ rest, id ∈ parts held} := by
        apply Set.disjoint_left.mpr
        intro id inFirst inRest
        obtain ⟨held, member, inHeld⟩ := inRest
        exact Set.disjoint_left.mp (firstApart held member) inFirst inHeld
      have restFinite : {id | ∃ held ∈ rest, id ∈ parts held}.Finite := by
        apply finite.subset
        intro id inRest
        obtain ⟨held, member, inHeld⟩ := inRest
        exact restBounded held member inHeld
      rw [split, Set.ncard_union_eq disjoint
        (finite.subset (bounded first List.mem_cons_self)) restFinite,
        inductionHypothesis restBounded restApart, List.map_cons,
        List.sum_cons]

private theorem ncard_eq_some (shared : Option Nat) :
    {id | shared = some id}.ncard = if shared.isSome then 1 else 0 := by
  cases shared with
  | none =>
      simp
  | some id =>
      have single : {other | some id = some other} = {id} := by
        ext other
        rw [Set.mem_ofPred_eq, Option.some_inj, Set.mem_singleton_iff]
        exact eq_comm
      rw [single, Set.ncard_singleton]
      rfl

private theorem finite_eq_some (shared : Option Nat) :
    {id | shared = some id}.Finite := by
  cases shared with
  | none => simp
  | some id => simp

/-- The two shared nodes are not the same. -/
theorem ncard_shared (sound : store.Sound) :
    {id | store.isShared id = true}.ncard =
      (if store.sharedAny.isSome then 1 else 0) +
        (if store.sharedEmpty.isSome then 1 else 0) := by
  have split : {id | store.isShared id = true} =
      {id | store.sharedAny = some id} ∪
        {id | store.sharedEmpty = some id} := by
    ext id
    exact isShared_iff store id
  have apart : Disjoint {id | store.sharedAny = some id}
      {id | store.sharedEmpty = some id} := by
    apply Set.disjoint_left.mpr
    intro id isAny
    exact sound.apart _ isAny
  rw [split, Set.ncard_union_eq apart (finite_eq_some _) (finite_eq_some _),
    ncard_eq_some, ncard_eq_some]

/-- The nodes in use are those of the automata that are held and the shared
ones. -/
theorem Orderly.liveCount_eq (orderly : session.Orderly) :
    session.store.liveCount =
      (session.held.map fun held =>
        (session.store.ownNodes held.start).ncard).sum +
      ((if session.store.sharedAny.isSome then 1 else 0) +
        (if session.store.sharedEmpty.isSome then 1 else 0)) := by
  have finite : {id | session.store.Live id}.Finite :=
    (Set.finite_lt_nat session.store.slots.size).subset
      fun _ live => live.lt_size
  have ownLive : ∀ held ∈ session.held,
      session.store.ownNodes held.start ⊆ {id | session.store.Live id} :=
    fun held member id own => orderly.intact held member id own.1
  have sharedLive : {id | session.store.isShared id = true} ⊆
      {id | session.store.Live id} :=
    fun _ shared => orderly.sound.shared_live shared
  have allOwnLive :
      {id | ∃ held ∈ session.held, id ∈ session.store.ownNodes held.start} ⊆
        {id | session.store.Live id} := by
    intro id belongs
    obtain ⟨held, member, own⟩ := belongs
    exact ownLive held member own
  have split : {id | session.store.Live id} =
      {id | ∃ held ∈ session.held, id ∈ session.store.ownNodes held.start} ∪
        {id | session.store.isShared id = true} := by
    apply Set.Subset.antisymm
    · intro id live
      exact (orderly.owned id live).symm
    · exact Set.union_subset allOwnLive sharedLive
  have apart : Disjoint
      {id | ∃ held ∈ session.held, id ∈ session.store.ownNodes held.start}
      {id | session.store.isShared id = true} := by
    apply Set.disjoint_left.mpr
    intro id belongs shared
    obtain ⟨held, member, own⟩ := belongs
    exact Bool.noConfusion (own.2.symm.trans shared)
  rw [orderly.sound.liveCount_eq, split,
    Set.ncard_union_eq apart (finite.subset allOwnLive)
      (finite.subset sharedLive),
    ncard_of_pairwise_disjoint finite ownLive orderly.apart,
    ncard_shared orderly.sound]

/-! ## Whole runs -/

theorem Arises.orderly (arises : session.Arises) : session.Orderly := by
  induction arises with
  | new =>
      exact orderly_new
  | call _ allowed result inductionHypothesis =>
      obtain ⟨other, isOther, orderly⟩ := inductionHypothesis.apply allowed
      rw [result] at isOther
      cases isOther
      exact orderly

/-- The automata that are held do not get into each other's way. -/
structure Undisturbed (session : Session) : Prop where
  exists_apply : ∀ call : Call, call.Allowed session →
    ∃ after, call.apply session = .ok after
  /-- What is held accepts what it accepted when it was returned. -/
  accepts : ∀ held ∈ session.held,
    session.store.Accepts held.start held.language
  intact : ∀ held ∈ session.held, session.store.Intact held.start
  /-- Every node in use belongs to one of the automata, or is shared. -/
  liveCount_eq : session.store.liveCount =
    (session.held.map fun held =>
      (session.store.ownNodes held.start).ncard).sum +
    ((if session.store.sharedAny.isSome then 1 else 0) +
      (if session.store.sharedEmpty.isSome then 1 else 0))

/-- Whatever calls a client made before, no call fails, and what it holds is as
it was returned. -/
theorem Arises.undisturbed (arises : session.Arises) :
    session.Undisturbed where
  exists_apply call allowed := by
    obtain ⟨after, result, _⟩ := arises.orderly.apply allowed
    exact ⟨after, result⟩
  accepts := arises.orderly.accepts
  intact := arises.orderly.intact
  liveCount_eq := arises.orderly.liveCount_eq

/-- Two automata and their union, and then the first one is released. -/
theorem Arises.undisturbed_release :
    ∃ session : Session, session.Arises ∧
      session.held.map Held.start = [4, 2] ∧
      session.store.liveCount = 5 ∧ session.Undisturbed := by
  have left : Arises _ := Arises.call Arises.new
    (show Call.Allowed _ (.compileModel (.leaf (.ofElement "a"))) from
      (by decide : (Model.leaf (.ofElement "a")).BoundsOrdered)) rfl
  have both : Arises _ := Arises.call left
    (show Call.Allowed _ (.compileModel (.leaf (.ofElement "b"))) from
      (by decide : (Model.leaf (.ofElement "b")).BoundsOrdered)) rfl
  have joined : Arises _ := Arises.call both
    (show Call.Allowed _ (.merge 0 2) from
      ⟨by decide, ⟨_, List.mem_cons_of_mem _ List.mem_cons_self, rfl⟩,
        ⟨_, List.mem_cons_self, rfl⟩⟩) rfl
  have released : Arises _ := Arises.call joined
    (show Call.Allowed _ (.release 0) from
      ⟨_, List.mem_cons_of_mem _ (List.mem_cons_of_mem _ List.mem_cons_self),
        rfl⟩) rfl
  exact ⟨_, released, rfl, rfl, released.undisturbed⟩

end Session

end ContentModel.Automaton
