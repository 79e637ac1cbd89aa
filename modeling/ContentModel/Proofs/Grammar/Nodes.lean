import ContentModel.Proofs.Automaton.Session
import ContentModel.Proofs.Grammar.Tidiness

/-!
# The nodes of a schema

Main statement: `publish_nodes`, a schema holds the nodes that its elements
reach and the shared nodes that were asked for, and no others, whatever was
declared and replaced before; and no node is reached from two elements that have
a model.
-/

namespace ContentModel

open Automaton

/-! ## Published stores -/

namespace Automaton

/-- The numbers of the slots in use. -/
def liveSlots (slots : List Slot) : Set Nat :=
  {id | ∃ slot : Slot, slots[id]? = some slot ∧ slot.live = true}

theorem mem_liveSlots_append_iff (slots : List Slot) (last : Slot)
    (id : Nat) :
    id ∈ liveSlots (slots ++ [last]) ↔
      id ∈ liveSlots slots ∨ (id = slots.length ∧ last.live = true) := by
  simp only [liveSlots, Set.mem_ofPred_eq]
  by_cases isLast : id = slots.length
  · rw [isLast, List.getElem?_concat_length,
      List.getElem?_eq_none (Nat.le_refl _)]
    simp
  · rcases Nat.lt_or_gt_of_ne isLast with within | beyond
    · simp [List.getElem?_append_left within, isLast]
    · have pastAll : (slots ++ [last]).length ≤ id := by
        rw [List.length_append]
        exact beyond
      simp [List.getElem?_eq_none pastAll,
        List.getElem?_eq_none (Nat.le_of_lt beyond), isLast]

theorem liveSlots_subset (slots : List Slot) :
    liveSlots slots ⊆ {id | id < slots.length} := by
  intro id isLive
  obtain ⟨slot, found, _⟩ := isLive
  exact (List.getElem?_eq_some_iff.mp found).1

theorem ncard_liveSlots (slots : List Slot) :
    (liveSlots slots).ncard = slots.countP (·.live) := by
  induction slots using List.reverseRecOn with
  | nil =>
      simp [liveSlots]
  | append_singleton slots last inductionHypothesis =>
      have finite : (liveSlots slots).Finite :=
        (Set.finite_lt_nat slots.length).subset (liveSlots_subset slots)
      have fresh : slots.length ∉ liveSlots slots :=
        fun isLive => Nat.lt_irrefl _ (liveSlots_subset slots isLive)
      rw [List.countP_append, ← inductionHypothesis]
      cases isLive : last.live with
      | true =>
          have further : liveSlots (slots ++ [last]) =
              insert slots.length (liveSlots slots) := by
            ext id
            rw [mem_liveSlots_append_iff, Set.mem_insert_iff, or_comm]
            simp only [isLive, and_true]
          rw [further, Set.ncard_insert_of_notMem fresh finite]
          simp [isLive]
      | false =>
          have same : liveSlots (slots ++ [last]) = liveSlots slots := by
            ext id
            rw [mem_liveSlots_append_iff]
            simp only [isLive, Bool.false_eq_true, and_false, or_false]
          rw [same]
          simp [isLive]

namespace Store

variable {store : Store} {start : Nat}

theorem size_freeze (sound : store.Sound) :
    store.freeze.size = store.liveCount := by
  have isLive : {id | store.Live id} = liveSlots store.slots.toList := by
    ext id
    simp only [liveSlots, Set.mem_ofPred_eq, live_iff_slot, slot_eq_ok_iff,
      Array.getElem?_toList]
  rw [sound.liveCount_eq, isLive, ncard_liveSlots, FrozenStore.size, freeze,
    List.countP_toArray, List.countP_map]
  rfl

/-- A step of the table of a node is one between positions. -/
theorem leads_of_step {id next : Nat} (step : store.Step id next) :
    Position.Leads ⟨store.freeze, id⟩ ⟨store.freeze, next⟩ := by
  obtain ⟨node, found, isTarget⟩ := step
  obtain ⟨entry, member, same⟩ := List.mem_map.mp isTarget
  refine Or.inr ⟨entry.1, ?_⟩
  rw [Position.follows, transitions_position found]
  rw [← same]
  exact List.mem_map.mpr ⟨entry, member, rfl⟩

/-- Steps lead from position to position as they do from node to node. -/
theorem Intact.leads_iff_reaches (intact : store.Intact start) (id : Nat) :
    Relation.ReflTransGen Position.Leads ⟨store.freeze, start⟩
        ⟨store.freeze, id⟩ ↔
      store.Reaches start id := by
  constructor
  · intro reached
    obtain ⟨other, same, reaches⟩ := intact.exists_reached_of_leads reached
    cases same
    exact reaches
  · intro reaches
    exact Relation.ReflTransGen.lift (Position.mk store.freeze)
      (fun _ _ => leads_of_step) _ _ reaches

end Store

end Automaton

namespace Schema

variable {schema : Schema} {store : Store} {element : Element}

/-- The nodes to which steps lead from the start of an element. -/
def nodesOf (schema : Schema) (element : Element) : Set Nat :=
  {id | ∃ position, schema.start element = .ok position ∧
    Relation.ReflTransGen Position.Leads position ⟨schema.store, id⟩}

theorem nodesOf_eq (isStore : schema.store = store.freeze)
    (intact : store.Intact element.start) :
    schema.nodesOf element = {id | store.Reaches element.start id} := by
  obtain ⟨node, isStart⟩ := intact element.start (store.reaches_start _)
  have isPosition :
      schema.start element = .ok ⟨store.freeze, element.start⟩ := by
    rw [start, isStore]
    exact Store.position_freeze isStart
  ext id
  rw [nodesOf, Set.mem_ofPred_eq, isPosition, isStore]
  simp only [Except.ok.injEq, exists_eq_left']
  exact intact.leads_iff_reaches id

theorem automata_eq (noError : schema.error = none) :
    schema.automata = .ok schema.store := by
  rw [automata, check, noError]
  rfl

end Schema

/-- Whether the content of the element has a model. -/
def Element.hasModel (element : Element) : Bool :=
  element.content == .mixed || element.content == .children

/-- Elements that weigh nothing may be left out of the sum. -/
theorem Element.sum_filter_hasModel {weight : Element → Nat}
    {elements : List Element}
    (weightless : ∀ element ∈ elements,
      element.hasModel = false → weight element = 0) :
    ((elements.filter hasModel).map weight).sum =
      (elements.map weight).sum := by
  induction elements with
  | nil =>
      rfl
  | cons first rest inductionHypothesis =>
      have same := inductionHypothesis fun element member =>
        weightless element (List.mem_cons_of_mem first member)
      rw [List.map_cons, List.sum_cons, ← same]
      cases isFirst : first.hasModel with
      | true =>
          rw [List.filter_cons_of_pos isFirst, List.map_cons, List.sum_cons]
      | false =>
          rw [List.filter_cons_of_neg (ne_true_of_eq_false isFirst),
            weightless first List.mem_cons_self isFirst, Nat.zero_add]

namespace Declarations

variable {declarations : Declarations} {calls : List Call}

/-! ## Counting -/

/-- The declarations as a client that holds the automata of the elements. -/
def session (declarations : Declarations) : Session where
  store := declarations.store
  held := declarations.elements.values.map fun element =>
    ⟨element.start, declarations.store.reader.language element.start⟩

namespace Tidy

variable (tidy : Tidy declarations)

include tidy

theorem orderly : declarations.session.Orderly where
  sound := tidy.sound
  standard := tidy.standard
  intact := by
    rw [session, List.forall_mem_map]
    intro element member
    obtain ⟨name, found⟩ := (Register.mem_values_iff _ element).mp member
    exact tidy.intact name element found
  accepts := by
    rw [session, List.forall_mem_map]
    intro element member
    obtain ⟨name, found⟩ := (Register.mem_values_iff _ element).mp member
    exact (tidy.intact name element found).accepts_language
  apart := by
    have isFound : ∀ entry ∈ declarations.elements.entries,
        declarations.elements.find? entry.1 = some entry.2 :=
      fun entry member =>
        (Register.find?_eq_some_iff _ entry.1 entry.2).mpr member
    rw [session, List.pairwise_map, Register.values, List.pairwise_map]
    apply declarations.elements.distinct.imp_of_mem
    intro left right leftMember rightMember different
    exact tidy.apart _ _ left.2 right.2 different (isFound left leftMember)
      (isFound right rightMember)
  owned id live := by
    refine (tidy.owned id live).imp_right ?_
    intro belongs
    obtain ⟨name, element, found, own⟩ := belongs
    have member := (Register.mem_values_iff _ element).mpr ⟨name, found⟩
    exact ⟨_, List.mem_map_of_mem member, own⟩

/-- An element without a model starts at a shared node and owns nothing. -/
theorem ownNodes_eq_empty {name : String} {element : Element}
    (found : declarations.elements.find? name = some element)
    (noModel : element.hasModel = false) :
    declarations.store.ownNodes element.start = ∅ := by
  have startsAt := tidy.startsAt name element found
  apply tidy.standard.ownNodes_eq_empty
  rw [Store.isShared_iff]
  cases isKind : element.content with
  | any =>
      rw [isKind] at startsAt
      exact Or.inl startsAt
  | empty =>
      rw [isKind] at startsAt
      exact Or.inr startsAt
  | mixed =>
      rw [Element.hasModel, isKind] at noModel
      cases noModel
  | children =>
      rw [Element.hasModel, isKind] at noModel
      cases noModel

theorem secluded {name : String} {element : Element}
    (found : declarations.elements.find? name = some element)
    (hasModel : element.hasModel = true) :
    declarations.store.Secluded element.start := by
  have startsAt := tidy.startsAt name element found
  cases isKind : element.content with
  | any =>
      rw [Element.hasModel, isKind] at hasModel
      cases hasModel
  | empty =>
      rw [Element.hasModel, isKind] at hasModel
      cases hasModel
  | mixed =>
      rw [isKind] at startsAt
      exact startsAt
  | children =>
      rw [isKind] at startsAt
      exact startsAt

/-- Only the elements with a model have nodes of their own. -/
theorem liveCount_eq :
    declarations.store.liveCount =
      ((declarations.elements.values.filter Element.hasModel).map
        fun element => (declarations.store.ownNodes element.start).ncard).sum +
      (declarations.store.sharedAny.isSome.toNat +
        declarations.store.sharedEmpty.isSome.toNat) := by
  have noneOwned : ∀ element ∈ declarations.elements.values,
      element.hasModel = false →
      (declarations.store.ownNodes element.start).ncard = 0 := by
    intro element member noModel
    obtain ⟨name, found⟩ := (Register.mem_values_iff _ element).mp member
    rw [tidy.ownNodes_eq_empty found noModel, Set.ncard_empty]
  have counted := tidy.orderly.liveCount_eq
  rw [session, List.map_map] at counted
  rw [Element.sum_filter_hasModel noneOwned, Bool.toNat, Bool.cond_eq_ite,
    Bool.toNat, Bool.cond_eq_ite]
  exact counted

variable {schema : Schema} {name : String} {element : Element}
  (isStore : schema.store = declarations.store.freeze)
  (found : declarations.elements.find? name = some element)

include isStore found

theorem start_mem_nodesOf : element.start ∈ schema.nodesOf element := by
  rw [Schema.nodesOf_eq isStore (tidy.intact name element found)]
  exact declarations.store.reaches_start element.start

theorem finite_nodesOf : (schema.nodesOf element).Finite := by
  have intact := tidy.intact name element found
  rw [Schema.nodesOf_eq isStore intact]
  exact (Set.finite_lt_nat declarations.store.slots.size).subset
    fun id reaches => (intact id reaches).lt_size

/-- An element with a model reaches what it owns. -/
theorem nodesOf_eq_ownNodes (hasModel : element.hasModel = true) :
    schema.nodesOf element = declarations.store.ownNodes element.start := by
  rw [Schema.nodesOf_eq isStore (tidy.intact name element found),
    (tidy.secluded found hasModel).ownNodes_eq]

theorem disjoint_nodesOf {other : String} {otherElement : Element}
    (different : name ≠ other)
    (otherFound : declarations.elements.find? other = some otherElement)
    (hasModel : element.hasModel = true)
    (otherHasModel : otherElement.hasModel = true) :
    Disjoint (schema.nodesOf element) (schema.nodesOf otherElement) := by
  rw [tidy.nodesOf_eq_ownNodes isStore found hasModel,
    tidy.nodesOf_eq_ownNodes isStore otherFound otherHasModel]
  exact tidy.apart name other element otherElement different found otherFound

omit found in
theorem size_eq :
    schema.store.size =
      ((declarations.elements.values.filter Element.hasModel).map
        fun element => (schema.nodesOf element).ncard).sum +
      (declarations.store.sharedAny.isSome.toNat +
        declarations.store.sharedEmpty.isSome.toNat) := by
  rw [isStore, Store.size_freeze tidy.sound, tidy.liveCount_eq]
  congr 2
  apply List.map_congr_left
  intro element member
  obtain ⟨isListed, hasModel⟩ := List.mem_filter.mp member
  obtain ⟨name, found⟩ := (Register.mem_values_iff _ element).mp isListed
  rw [tidy.nodesOf_eq_ownNodes isStore found hasModel]

end Tidy

/-! ## Published declarations -/

/-- The content that is declared last for the name has a model. -/
def isModelled (name : String) (calls : List Call) : Bool :=
  (lastContent name calls).any fun content =>
    content.kind == .mixed || content.kind == .children

theorem Finds.hasModel_eq {name : String} {element : Element}
    (finds : Finds calls name (some element)) :
    element.hasModel = isModelled name calls := by
  cases finds with
  | declared isContent isKind _ _ =>
      rw [isModelled, isContent, Element.hasModel, isKind]
      rfl
  | undefined noContent _ isKind _ _ =>
      rw [isModelled, noContent, Element.hasModel, isKind]
      rfl

/-- What is published is tidy, and has the shared nodes that were asked for. -/
theorem Proceeding.complete_tidy (proceeding : Proceeding calls declarations) :
    Tidy declarations.complete ∧
      SharesAfter declarations declarations.complete := by
  have noneUndefined : ∀ name element,
      declarations.elements.find? name = some element →
      element.isUndefined = false := by
    intro name element found
    have entered := proceeding.enteredAs name
    rw [found] at entered
    generalize lastContent name calls = last at entered
    cases entered with
    | declared _ => rfl
  have shares : SharesAfter declarations declarations := by
    refine ⟨(or_iff_left ?_).symm, rfl⟩
    intro someUndefined
    obtain ⟨name, element, found, isUndefined⟩ := someUndefined
    rw [noneUndefined name element found] at isUndefined
    cases isUndefined
  exact complete_keeps declarations
    (motive := fun later => Tidy later ∧ SharesAfter declarations later)
    ⟨proceeding.tidy, shares⟩
    (fun _ atom holds =>
      ⟨holds.1.addUndefined atom, holds.2.addUndefined atom⟩)
    fun _ entry holds =>
      ⟨holds.1.attach entry, holds.2.attach entry⟩

/-- Calls in any order do not fail. If no error was recorded, the nodes of the
schema are those that are reached from the elements whose content has a model,
and the shared nodes that were asked for: one for empty content, and one for any
content and for undefined elements. No two elements with a model have a node in
common. -/
theorem publish_nodes (ordered : ∀ call ∈ calls, call.BoundsOrdered) :
    ∃ declarations, run calls = .ok declarations ∧
      (declarations.error = none →
        ∃ elements automata,
          declarations.publish.elements = .ok elements ∧
          declarations.publish.automata = .ok automata ∧
          automata.size =
            ((elements.filter fun element =>
                isModelled element.name calls).map fun element =>
              (declarations.publish.nodesOf element).ncard).sum +
            (calls.any (Call.declares .empty)).toNat +
            (calls.any (Call.declares .any) ||
              elements.any Element.isUndefined).toNat ∧
          (∀ element ∈ elements,
            element.start ∈ declarations.publish.nodesOf element ∧
            (declarations.publish.nodesOf element).Finite) ∧
          ∀ left ∈ elements, ∀ right ∈ elements, left.name ≠ right.name →
            isModelled left.name calls = true →
            isModelled right.name calls = true →
            Disjoint (declarations.publish.nodesOf left)
              (declarations.publish.nodesOf right)) := by
  obtain ⟨declarations, isRun, _, proceeding⟩ := exists_proceeding ordered
  refine ⟨declarations, isRun, ?_⟩
  intro noError
  have proceeding := proceeding noError
  have answers : declarations.publish.error = none :=
    (error_publish declarations).trans noError
  obtain ⟨tidy, shares⟩ := proceeding.complete_tidy
  have isPublished := publish_eq tidy.named
  have isStore :
      declarations.publish.store = declarations.complete.store.freeze := by
    rw [isPublished]
  have isRegistered :
      declarations.publish.registered = declarations.complete.elements := by
    rw [isPublished]
  have sorted := declarations.publish.sorted_perm
  rw [isRegistered] at sorted
  -- An element of the schema is found under its name, with the kind of content
  -- that was declared last.
  have isFound : ∀ element ∈ declarations.publish.sorted,
      declarations.complete.elements.find? element.name = some element :=
    fun element member =>
      (listed_iff tidy.named element.name element).mp
        ⟨sorted.mem_iff.mp member, rfl⟩
  have hasModel_eq : ∀ element ∈ declarations.publish.sorted,
      element.hasModel = isModelled element.name calls := by
    intro element member
    have finds := proceeding.finds element.name
    rw [isRegistered, isFound element member] at finds
    exact finds.hasModel_eq
  refine ⟨_, declarations.complete.store.freeze, Schema.elements_eq answers,
    ?_, ?_, ?_, ?_⟩
  · rw [Schema.automata_eq answers, isStore]
  · have isAny : declarations.complete.store.sharedAny.isSome =
        (calls.any (Call.declares .any) ||
          declarations.publish.sorted.any Element.isUndefined) := by
      rw [shares.any_eq, proceeding.shares.1, sorted.any_eq]
    have isEmpty : declarations.complete.store.sharedEmpty.isSome =
        calls.any (Call.declares .empty) := by
      rw [shares.empty_eq, proceeding.shares.2]
    rw [← isStore, tidy.size_eq isStore, isAny, isEmpty,
      ← ((sorted.filter Element.hasModel).map fun element =>
        (declarations.publish.nodesOf element).ncard).sum_eq,
      List.filter_congr hasModel_eq, Nat.add_comm (Bool.toNat _),
      Nat.add_assoc]
  · intro element member
    have found := isFound element member
    exact ⟨tidy.start_mem_nodesOf isStore found,
      tidy.finite_nodesOf isStore found⟩
  · intro left isLeft right isRight different leftModelled rightModelled
    rw [← hasModel_eq left isLeft] at leftModelled
    rw [← hasModel_eq right isRight] at rightModelled
    exact tidy.disjoint_nodesOf isStore (isFound left isLeft) different
      (isFound right isRight) leftModelled rightModelled

/-- An element is declared three times and refers to one that is not
declared. -/
def replacedTwice : List Call :=
  [.declareElement (.ofElement "a")
      (.children (.sequence
        [.leaf (.ofElement "a"), .leaf (.ofElement "b")])),
    .declareElement (.ofElement "a") .empty,
    .declareElement (.ofElement "a") (.mixed [.ofElement "a"])]

/-- What is left is a node of the last content and the shared ones. -/
theorem publish_nodes_replacedTwice :
    ∃ declarations elements automata,
      run replacedTwice = .ok declarations ∧
      declarations.publish.elements = .ok elements ∧
      declarations.publish.automata = .ok automata ∧
      automata.size = 3 ∧
      ((elements.filter fun element =>
          isModelled element.name replacedTwice).map fun element =>
        (declarations.publish.nodesOf element).ncard).sum = 1 := by
  have sequenceOrdered : (Model.sequence
      [.leaf (.ofElement "a"), .leaf (.ofElement "b")]).BoundsOrdered := by
    decide
  have ordered : ∀ call ∈ replacedTwice, call.BoundsOrdered := by
    simp only [replacedTwice, List.forall_mem_cons, List.not_mem_nil,
      false_implies, implies_true, and_true]
    exact ⟨sequenceOrdered, trivial, trivial⟩
  obtain ⟨declarations, isRun, published⟩ := publish_nodes ordered
  have noError : declarations.error = none := by
    cases isRun
    rfl
  obtain ⟨elements, automata, isElements, isAutomata, counted, _⟩ :=
    published noError
  have size_eq : automata.size = 3 := by
    cases isRun
    cases isAutomata
    rw [FrozenStore.size, ← Array.countP_toList]
    rfl
  have declaresEmpty : replacedTwice.any (Call.declares .empty) = true := rfl
  have hasUndefined : elements.any Element.isUndefined = true := by
    cases isRun
    cases isElements
    exact (Schema.sorted_perm _).any_eq.trans rfl
  refine ⟨declarations, elements, automata, isRun, isElements, isAutomata,
    size_eq, ?_⟩
  rw [size_eq, declaresEmpty, hasUndefined, Bool.or_true, Bool.toNat_true]
    at counted
  omega

end Declarations

end ContentModel
