import ContentModel.Proofs.Automaton.Confined
import ContentModel.Proofs.Automaton.SameLanguage

/-!
# Nodes that are not in use

An operation that asks for a node which was freed, or was never handed out,
ends with a fault that names the node. A union does not ask for its nodes when
they are the same one, nor for the second of them when the first accepts
everything. Main statement: in a store that operations made all other uses of
such a node are refused (`Reached.refuses`).
-/

namespace ContentModel.Automaton.Store

variable {store : Store} {id : Nat} {α β : Type}

/-! ## Refused computations -/

/-- What is wrong with a node that is not in use. -/
def absence (store : Store) (id : Nat) : Fault :=
  if id < store.slots.size then .freedNode id else .unknownNode id

/-- The computation ends at a node that is not in use, and the store says
so. -/
def Refused (store : Store) (result : Except Fault α) : Prop :=
  ∃ id detail, ¬ store.Live id ∧ result = .error (store.absence id) ∧
    (store.absence id).message = "DfmBuilder: " ++ detail

theorem exists_message_absence (store : Store) (id : Nat) :
    ∃ detail, (store.absence id).message = "DfmBuilder: " ++ detail := by
  have addressed : ∀ rest, "DfmBuilder: node #" ++ toString id ++ rest =
      "DfmBuilder: " ++ ("node #" ++ toString id ++ rest) := by
    intro rest
    have parts : "DfmBuilder: node #" = "DfmBuilder: " ++ "node #" := by
      decide
    rw [parts, String.append_assoc, String.append_assoc, String.append_assoc]
  rw [absence]
  by_cases handedOut : id < store.slots.size
  · rw [if_pos handedOut]
    exact ⟨_, addressed " is not live (freed twice or used after free)"⟩
  · rw [if_neg handedOut]
    exact ⟨_, addressed " was never allocated by this store"⟩

theorem refused_absence (dead : ¬ store.Live id) :
    store.Refused (.error (store.absence id) : Except Fault α) := by
  obtain ⟨detail, isMessage⟩ := store.exists_message_absence id
  exact ⟨id, detail, dead, rfl, isMessage⟩

/-- What comes after a refusal is not tried. -/
theorem Refused.bind {first : Except Fault α} (refused : store.Refused first)
    (next : α → Except Fault β) : store.Refused (first >>= next) := by
  obtain ⟨id, _, dead, isFirst, _⟩ := refused
  rw [isFirst]
  exact refused_absence dead

/-! ## Reading a node -/

theorem slot_eq_error (dead : ¬ store.Live id) :
    store.slot id = .error (store.absence id) := by
  rw [slot, absence]
  cases isSlot : store.slots[id]? with
  | none =>
      have beyond := Array.getElem?_eq_none_iff.mp isSlot
      rw [if_neg (Nat.not_lt.mpr beyond)]
  | some slot =>
      obtain ⟨handedOut, _⟩ := Array.getElem?_eq_some_iff.mp isSlot
      have notLive : ¬ slot.live = true := by
        intro live
        exact dead ⟨slot.node,
          (node_eq_ok_iff store id slot.node).mpr ⟨slot, isSlot, live, rfl⟩⟩
      rw [if_pos handedOut]
      exact if_neg notLive

theorem node_eq_error (dead : ¬ store.Live id) :
    store.node id = .error (store.absence id) := by
  rw [node, slot_eq_error dead]
  rfl

theorem refused_slot (dead : ¬ store.Live id) :
    store.Refused (store.slot id) := by
  rw [slot_eq_error dead]
  exact refused_absence dead

theorem refused_node (dead : ¬ store.Live id) :
    store.Refused (store.node id) := by
  rw [node_eq_error dead]
  exact refused_absence dead

theorem refused_setTransition (dead : ¬ store.Live id) (atom : Atom)
    (other : Nat) :
    store.Refused (store.setTransition id atom other) ∧
      store.Refused (store.setTransition other atom id) := by
  constructor
  · by_cases live : store.Live other
    · obtain ⟨slot, isSlot⟩ := (live_iff_slot store other).mp live
      rw [setTransition, isSlot, ok_bind]
      exact (refused_node dead).bind _
    · exact (refused_slot live).bind _
  · exact (refused_slot dead).bind _

/-! ## Searching from a node -/

/-- A release that comes by the node is refused. -/
theorem refused_release (sound : store.Sound) {start : Nat}
    (owns : store.Owns start id) (dead : ¬ store.Live id) :
    store.Refused (store.release start) := by
  have ends := ends_owned sound start
  cases result : Search.depthFirst (store.slots.size + 1)
      store.ownedTargets [start] with
  | ok visited =>
      rw [result] at ends
      have answers := ends.answers id owns
      exact absurd ((answers_ownedTargets_iff sound id).mp answers) dead
  | error fault =>
      rw [result] at ends
      -- The search may have failed at another node than the given one.
      obtain ⟨culprit, _, fails⟩ := ends
      have culpritDead : ¬ store.Live culprit := by
        intro live
        obtain ⟨found, isFound⟩ :=
          (answers_ownedTargets_iff sound culprit).mpr live
        rw [fails] at isFound
        cases isFound
      have notShared : ¬ store.isShared culprit = true := by
        intro shared
        exact culpritDead (sound.shared_live shared)
      rw [ownedTargets, if_neg notShared, node_eq_error culpritDead] at fails
      cases fails
      rw [release, owned_eq, result]
      exact refused_absence culpritDead

theorem refused_listing (dead : ¬ store.Live id) :
    store.Refused (store.listing id) := by
  have fails : (do return (← store.node id).targets) =
      (.error (store.absence id) : Except Fault (List Nat)) := by
    rw [node_eq_error dead]
    rfl
  have isReachable :
      store.reader.reachable id = .error (store.absence id) := by
    rw [Reader.reachable, Search.breadthFirst,
      Search.explore_eq_error fails]
    rfl
  rw [listing, Reader.listing, isReachable]
  exact refused_absence dead

/-! ## Comparing with a node -/

theorem sameLanguage_eq_error {reader : Reader} {left right : Nat}
    {fault : Fault}
    (fails : reader.jointSteps (some left, some right) = .error fault) :
    reader.sameLanguage left right = .error fault := by
  have isFault : reader.comparison (some left, some right) =
      .error (.fault fault) := by
    rw [Reader.comparison, fails]
  have searched : Search.depthFirst
      ((reader.size + 1) * (reader.size + 1)) reader.comparison
      [(some left, some right)] = .error (.fault fault) := by
    rw [Search.depthFirst]
    exact Search.explore_eq_error isFault
  rw [Reader.sameLanguage]
  split
  · rename_i result
    cases searched.symm.trans result
  · rename_i result
    cases searched.symm.trans result
  · rename_i result
    cases searched.symm.trans result
    rfl

/-- Both nodes are read before anything is compared. -/
theorem refused_sameLanguage (dead : ¬ store.Live id) (other : Nat) :
    store.Refused (store.sameLanguage id other) ∧
      store.Refused (store.sameLanguage other id) := by
  have passesOn : ∀ left right : Nat,
      store.Refused (store.reader.jointSteps (some left, some right)) →
      store.Refused (store.sameLanguage left right) := by
    intro left right refused
    obtain ⟨culprit, _, culpritDead, fails, _⟩ := refused
    rw [sameLanguage, sameLanguage_eq_error fails]
    exact refused_absence culpritDead
  have side : store.Refused (store.reader.readSide (some id)) :=
    (refused_node dead).bind _
  constructor
  · exact passesOn id other (side.bind _)
  · apply passesOn other id
    -- The other node is read first; if it is not in use, it is refused itself.
    by_cases live : store.Live other
    · obtain ⟨node, found⟩ := live
      have isRead : store.reader.read other = .ok node := found
      have isSide : store.reader.readSide (some other) = .ok (some node) := by
        rw [Reader.readSide, isRead]
        rfl
      rw [Reader.jointSteps, isSide, ok_bind]
      exact side.bind _
    · have otherSide : store.Refused (store.reader.readSide (some other)) :=
        (refused_node live).bind _
      exact otherSide.bind _

/-! ## Unions with a node -/

section Constructing

variable {κ : Type} [Ord κ] [Std.TransOrd κ] {start : κ}
  {step : Store → κ → Except Fault (SubsetStep κ)}

theorem determinize_eq_error {fault : Fault}
    (fails : step store start = .error fault) :
    store.determinize start step = .error fault := by
  have isFirst : Construction.stateOf step start ⟨store, ∅, #[]⟩ =
      .error fault := by
    rw [Construction.stateOf, Std.TreeMap.getElem?_emptyc]
    simp only [fails]
  rw [determinize, isFirst]

theorem determinize_eq_any {any : Nat} (present : store.sharedAny = some any)
    (answer : step store start = .ok .any) :
    store.determinize start step = .ok (.ok any, store) := by
  have isFirst : Construction.stateOf step start ⟨store, ∅, #[]⟩ =
      .ok (any, ⟨store, (∅ : Std.TreeMap κ Nat compare).insert start any,
        #[]⟩) := by
    rw [Construction.stateOf, Std.TreeMap.getElem?_emptyc]
    simp only [answer, anyNode_of_some present]
  rw [determinize, isFirst]
  unfold Construction.complete
  rfl

end Constructing

/-- The members of a set are asked for up to the first one that accepts
everything. -/
theorem refused_unionStep (sound : store.Sound) (dead : ¬ store.Live id)
    (earlier later : List Nat)
    (noneAny : ∀ other ∈ earlier, store.sharedAny ≠ some other)
    (tally : UnionTally) :
    store.Refused (store.unionStep tally (earlier ++ id :: later)) := by
  induction earlier generalizing tally with
  | nil =>
      rw [List.nil_append, unionStep, node_eq_error dead]
      exact refused_absence dead
  | cons first rest inductionHypothesis =>
      rw [List.cons_append, unionStep]
      by_cases live : store.Live first
      · obtain ⟨node, found⟩ := live
        have notAny : ¬ node.isAny = true := by
          intro isAny
          exact noneAny first List.mem_cons_self
            ((sound.isAny_iff first node found).mp isAny)
        simp only [found, if_neg notAny]
        exact inductionHypothesis
          (fun other member => noneAny other (List.mem_cons_of_mem _ member)) _
      · rw [node_eq_error live]
        exact refused_absence live

theorem merge_comm {left right : Nat} (different : left ≠ right) :
    store.merge left right = store.merge right left := by
  rw [merge_eq_determinize store different,
    merge_eq_determinize store different.symm, pair_comm different]

theorem refused_merge (sound : store.Sound) (dead : ¬ store.Live id)
    {other : Nat} (different : other ≠ id)
    (notAny : other < id → store.sharedAny ≠ some other) :
    store.Refused (store.merge other id) := by
  have refused : store.Refused (store.unionStep {} (pair other id)) := by
    rw [pair]
    by_cases below : other < id
    · rw [if_pos below]
      refine refused_unionStep sound dead [other] [] ?_ {}
      intro member isMember
      rw [List.mem_singleton.mp isMember]
      exact notAny below
    · rw [if_neg below]
      refine refused_unionStep sound dead [] [other] ?_ {}
      intro member isMember
      exact absurd isMember List.not_mem_nil
  obtain ⟨culprit, _, culpritDead, fails, _⟩ := refused
  rw [merge_eq_determinize store different, determinize_eq_error fails]
  exact refused_absence culpritDead

/-- A node that accepts everything decides before a later node is asked
for. -/
theorem merge_of_any (sound : store.Sound) {any : Nat}
    (present : store.sharedAny = some any) (below : any < id) :
    store.merge any id = .ok (.ok any, store) := by
  obtain ⟨node, found⟩ := sound.anyLive any present
  have isAny : node.isAny = true :=
    (sound.isAny_iff any node found).mpr present
  have answer : store.unionStep {} (pair any id) = .ok .any := by
    rw [pair, if_pos below, unionStep]
    simp only [found, if_pos isAny]
  rw [merge_eq_determinize store (Nat.ne_of_lt below)]
  exact determinize_eq_any present answer

/-! ## Every operation -/

/-- Every operation refuses the node. A union asks neither for a node that is
to be united with itself nor for one that comes after the node which accepts
everything. -/
structure Refuses (store : Store) (id : Nat) : Prop where
  node : store.Refused (store.node id)
  free : store.Refused (store.free id)
  release : store.Refused (store.release id)
  setAccepting : ∀ accepting,
    store.Refused (store.setAccepting id accepting)
  setTransition : ∀ atom other,
    store.Refused (store.setTransition id atom other) ∧
      store.Refused (store.setTransition other atom id)
  advance : ∀ name, store.Refused (store.advance id name)
  sameLanguage : ∀ other,
    store.Refused (store.sameLanguage id other) ∧
      store.Refused (store.sameLanguage other id)
  listing : store.Refused (store.listing id)
  merge : ∀ other, other ≠ id →
    (other < id → store.sharedAny ≠ some other) →
    store.Refused (store.merge id other) ∧
      store.Refused (store.merge other id)
  mergeSelf : store.merge id id = .ok (.ok id, store)
  mergeAny : ∀ any, store.sharedAny = some any → any < id →
    store.merge id any = .ok (.ok any, store) ∧
      store.merge any id = .ok (.ok any, store)

/-- A node that was freed or never handed out is refused by every operation
that asks for it. -/
theorem Reached.refuses (reached : store.Reached) (dead : ¬ store.Live id) :
    store.Refuses id where
  node := refused_node dead
  free := (refused_slot dead).bind _
  release := refused_release reached.sound
    (Search.reachable_start (List.mem_singleton_self id)) dead
  setAccepting _ := (refused_slot dead).bind _
  setTransition := refused_setTransition dead
  advance _ := (refused_node dead).bind _
  sameLanguage := refused_sameLanguage dead
  listing := refused_listing dead
  merge other different notAny := by
    have refused := refused_merge reached.sound dead different notAny
    rw [merge_comm different.symm]
    exact ⟨refused, refused⟩
  mergeSelf := if_pos rfl
  mergeAny any present below := by
    have isAny := merge_of_any reached.sound present below
    rw [merge_comm (Nat.ne_of_gt below)]
    exact ⟨isAny, isAny⟩

/-- The second of three nodes was freed. -/
def freedBetween : Store where
  slots := #[⟨1, true, freshAny⟩, ⟨2, false, {}⟩, ⟨3, true, {}⟩]
  pool := [1]
  sharedAny := some 0
  issued := 3

theorem reached_freedBetween : freedBetween.Reached := by
  have made : Reached _ := .alloc (.alloc (.anyNode .new))
  exact .free made (show Store.free _ 1 = .ok freedBetween from rfl)

theorem not_live_freedBetween :
    ¬ freedBetween.Live 1 ∧ ¬ freedBetween.Live 3 := by
  constructor
  · intro live
    obtain ⟨node, found⟩ := live
    cases found
  · intro live
    obtain ⟨node, found⟩ := live
    cases found

theorem Reached.refuses_freedBetween :
    freedBetween.Reached ∧
    (¬ freedBetween.Live 1 ∧ freedBetween.Refuses 1) ∧
    (¬ freedBetween.Live 3 ∧ freedBetween.Refuses 3) := by
  obtain ⟨freed, beyond⟩ := not_live_freedBetween
  exact ⟨reached_freedBetween, ⟨freed, reached_freedBetween.refuses freed⟩,
    beyond, reached_freedBetween.refuses beyond⟩

/-- A freed node is united with itself, and with the node that accepts
everything if that comes first. -/
theorem merge_not_refused_freedBetween :
    freedBetween.Reached ∧ ¬ freedBetween.Live 1 ∧
    freedBetween.merge 1 1 = .ok (.ok 1, freedBetween) ∧
    freedBetween.merge 0 1 = .ok (.ok 0, freedBetween) ∧
    freedBetween.merge 1 0 = .ok (.ok 0, freedBetween) :=
  ⟨reached_freedBetween, not_live_freedBetween.1, rfl, rfl, rfl⟩

end ContentModel.Automaton.Store
