import ContentModel.Proofs.Automaton.Canonical
import ContentModel.Proofs.Automaton.History

/-!
# How a compilation numbers its nodes

Where no freed slot waits, the nodes of a compilation get the numbers behind
those of the store, in the order in which a listing reaches them. Main
statement: `compileModel_numbers`. The construction and the listing search the
same graph, the one by keys while it is made and the other by nodes when it is
done. What ties them together is `Numbered`: at any time the numbers given so
far are those to which the tables lead, in the order in which they are first
met there.
-/

namespace ContentModel.Automaton

universe u

/-! ## Targets -/

namespace Store

/-- Where the table of a node leads, if there is such a node. -/
def targetsOf (store : Store) (id : Nat) : List Nat :=
  match store.node id with
  | .ok node => node.targets
  | .error _ => []

variable {store before after : Store}

theorem targetsOf_of_node {id : Nat} {node : Node}
    (found : store.node id = .ok node) : store.targetsOf id = node.targets := by
  rw [targetsOf, found]

theorem targetsOf_congr {id : Nat} (same : after.node id = before.node id) :
    after.targetsOf id = before.targetsOf id := by
  rw [targetsOf, targetsOf, same]

/-- A new node without edges changes nothing about where the others lead. -/
theorem targetsOf_of_introduces {ids : List Nat} {target : Nat} {node : Node}
    (introduces : Introduces before target node after)
    (bare : node.transitions = ∅) (targetNew : target ∉ ids) :
    (∀ id ∈ ids, after.targetsOf id = before.targetsOf id) ∧
      after.targetsOf target = [] ∧
      (ids ++ [target]).flatMap after.targetsOf =
        ids.flatMap before.targetsOf := by
  have oldTargets : ∀ id ∈ ids,
      after.targetsOf id = before.targetsOf id := by
    intro id member
    apply targetsOf_congr
    rw [introduces.node_eq, if_neg]
    exact fun same => targetNew (same ▸ member)
  have newTargets : after.targetsOf target = [] := by
    have found : after.node target = .ok node := by
      rw [introduces.node_eq, if_pos rfl]
    rw [targetsOf_of_node found, Node.targets, bare]
    rfl
  refine ⟨oldTargets, newTargets, ?_⟩
  rw [List.flatMap_append, List.flatMap_singleton, newTargets,
    List.append_nil]
  exact List.flatMap_congr oldTargets

/-- Where no freed slot waits, a node gets the next number. -/
theorem alloc_of_noneFree (noneFree : store.pool = []) :
    store.alloc.1 = store.slots.size ∧ store.alloc.2.pool = [] ∧
      store.alloc.2.slots.size = store.slots.size + 1 := by
  obtain ⟨slots, pool, any, empty, limit, reused, issued⟩ := store
  cases noneFree
  exact ⟨rfl, rfl, Array.size_push _⟩

end Store

/-- If one of the later lists grows at its end and those behind it are empty,
all of them together grow at their end. -/
theorem flatMap_concat {ids : List Nat} {before after : Nat → List Nat}
    {source target : Nat} (ascending : ids.Pairwise (· < ·))
    (member : source ∈ ids)
    (blank : ∀ id ∈ ids, source < id → after id = [])
    (longer : after source = before source ++ [target])
    (same : ∀ id ∈ ids, id ≠ source → after id = before id) :
    ids.flatMap after = ids.flatMap before ++ [target] := by
  induction ids with
  | nil =>
      exact absurd member List.not_mem_nil
  | cons head tail inductionHypothesis =>
      obtain ⟨headBelow, tailAscending⟩ := List.pairwise_cons.mp ascending
      rw [List.flatMap_cons, List.flatMap_cons]
      by_cases isHead : source = head
      · have tailBlank : tail.flatMap after = [] := by
          rw [List.flatMap_eq_nil_iff]
          intro id later
          exact blank id (List.mem_cons_of_mem head later)
            (isHead ▸ headBelow id later)
        have tailSame : tail.flatMap before = tail.flatMap after := by
          apply List.flatMap_congr
          intro id later
          exact (same id (List.mem_cons_of_mem head later)
            (Nat.ne_of_gt (isHead ▸ headBelow id later))).symm
        rw [tailSame, tailBlank, ← isHead, longer, List.append_nil,
          List.append_nil]
      · have isLater : source ∈ tail :=
          (List.mem_cons.mp member).resolve_left isHead
        rw [same head List.mem_cons_self (Ne.symm isHead),
          inductionHypothesis tailAscending isLater
            (fun id later => blank id (List.mem_cons_of_mem head later))
            (fun id later => same id (List.mem_cons_of_mem head later)),
          List.append_assoc]

namespace Construction

open Store (Grown)

variable {κ : Type u} [Ord κ] {base : Store}
  {step : Store → κ → Except Fault (SubsetStep κ)}
  {before found after : Construction κ} {position : Nat} {pending : List Nat}

/-- Every edge bears a smaller name than the edges behind it. -/
def NamesAscend {κ : Type u} (edges : List (Atom × κ)) : Prop :=
  edges.Pairwise fun left right => left.1.name < right.1.name

/-- Every key gets a node of its own, and the edges of a node are in order of
name. -/
def Expands (step : Store → κ → Except Fault (SubsetStep κ)) : Prop :=
  ∀ store key answer, step store key = .ok answer →
    ∃ accepting edges, answer = .expand accepting edges ∧ NamesAscend edges

/-- The nodes made so far have the numbers behind those of `base`, in the order
in which tables lead to them, and the node of a pending number is met but its
edge is not entered. The nodes from a position on have no edges yet. -/
structure Numbered (base : Store) (position : Nat) (pending : List Nat)
    (construction : Construction κ) : Prop where
  grown : Grown base construction.created construction.store
  noneFree : construction.store.pool = []
  size_eq : construction.store.slots.size =
    base.slots.size + construction.states.size
  created_eq : construction.created =
    List.range' base.slots.size construction.states.size
  known : ∀ (key : κ) (id : Nat), construction.known[key]? = some id →
    id ∈ construction.created
  ordered : ∀ state ∈ construction.states, NamesAscend state.2
  blank : ∀ id ∈ construction.created, base.slots.size + position ≤ id →
    construction.store.targetsOf id = []
  meetings : (base.slots.size ::
      (construction.created.flatMap construction.store.targetsOf ++
        pending)).eraseDups = construction.created
  early : ∀ id ∈ construction.created, id = base.slots.size ∨
    (id ∈ pending ∧ base.slots.size + position ≤ id) ∨
    ∃ parent ∈ construction.created, parent < id ∧
      id ∈ construction.store.targetsOf parent

theorem Numbered.mem_created_iff
    (numbered : Numbered base position pending before) (id : Nat) :
    id ∈ before.created ↔ base.slots.size ≤ id ∧
      id < base.slots.size + before.states.size := by
  rw [numbered.created_eq, List.mem_range'_1]

/-- The nodes behind a position are those behind an earlier one, too. -/
theorem Numbered.advance (numbered : Numbered base position [] before) :
    Numbered base (position + 1) [] before :=
  { numbered with
    blank := fun id member behind =>
      numbered.blank id member (Nat.le_of_succ_le behind)
    early := fun id member =>
      (numbered.early id member).imp_right fun either =>
        Or.inr (either.resolve_left fun waits =>
          absurd waits.1 List.not_mem_nil) }

/-- A new node gets the next number, and nothing leads on from it yet. -/
theorem Numbered.add {target : Nat} {node : Node} {edges : List (Atom × κ)}
    (numbered : Numbered base position [] before)
    (within : position ≤ before.states.size)
    (introduces : Store.Introduces before.store target node after.store)
    (bare : node.transitions = ∅) (isNext : target = before.store.slots.size)
    (noneFree : after.store.pool = [])
    (size_eq : after.store.slots.size = before.store.slots.size + 1)
    (isState : after.states = before.states.push (target, edges))
    (ascend : NamesAscend edges)
    (known : ∀ (key : κ) (id : Nat), after.known[key]? = some id →
      id = target ∨ id ∈ before.created)
    (grown : Grown base after.created after.store) :
    Numbered base position [target] after := by
  rw [numbered.size_eq] at isNext
  have meetings := numbered.meetings
  rw [List.append_nil] at meetings
  have isCreated : after.created = before.created ++ [target] := by
    rw [created, isState, map_fst_push]
    rfl
  have targetNew : target ∉ before.created := by
    rw [numbered.mem_created_iff, isNext]
    exact fun isOld => Nat.lt_irrefl _ isOld.2
  obtain ⟨oldTargets, newTargets, sameTargets⟩ :=
    Store.targetsOf_of_introduces introduces bare targetNew
  refine ⟨grown, noneFree, ?_, ?_, ?_, ?_, ?_, ?_, ?_⟩
  · rw [size_eq, numbered.size_eq, isState, Array.size_push, Nat.add_assoc]
  · rw [isCreated, isState, Array.size_push, List.range'_1_concat,
      numbered.created_eq, isNext]
  · intro key id isKnown
    rw [isCreated]
    cases known key id isKnown with
    | inl isTarget =>
        exact List.mem_append_right _ (List.mem_singleton.mpr isTarget)
    | inr isOld =>
        exact List.mem_append_left _ isOld
  · intro state member
    rw [isState] at member
    cases Array.mem_push.mp member with
    | inl isOld =>
        exact numbered.ordered state isOld
    | inr isLast =>
        rw [isLast]
        exact ascend
  · intro id member behind
    rw [isCreated] at member
    cases List.mem_append.mp member with
    | inl isOld =>
        rw [oldTargets id isOld]
        exact numbered.blank id isOld behind
    | inr isTarget =>
        rw [List.mem_singleton.mp isTarget]
        exact newTargets
  · have isNew : target ∉ base.slots.size ::
        before.created.flatMap before.store.targetsOf := by
      rw [← List.mem_eraseDups, meetings]
      exact targetNew
    rw [isCreated, sameTargets, ← List.cons_append,
      Search.eraseDups_concat isNew, meetings]
  · intro id member
    rw [isCreated] at member ⊢
    cases List.mem_append.mp member with
    | inl isOld =>
        refine (numbered.early id isOld).imp_right fun either => ?_
        obtain ⟨parent, isParent, below, leads⟩ :=
          either.resolve_left fun waits => absurd waits.1 List.not_mem_nil
        refine Or.inr ⟨parent, List.mem_append_left _ isParent, below, ?_⟩
        rw [oldTargets parent isParent]
        exact leads
    | inr isTarget =>
        rw [List.mem_singleton.mp isTarget, isNext]
        exact Or.inr (Or.inl
          ⟨List.mem_singleton_self _, Nat.add_le_add_left within _⟩)

section Meeting

variable [Std.TransOrd κ] [Std.LawfulEqOrd κ]

/-- Meeting a key gives the next number to its node, if it has none. -/
theorem Finds.numbered {key : κ} {target : Nat} (expands : Expands step)
    (numbered : Numbered base position [] before)
    (within : position ≤ before.states.size)
    (finds : Finds step key before target found) :
    Numbered base position [target] found := by
  have grown := finds.grown numbered.grown
  have isKnown := finds.known_iff
  cases finds with
  | known wasKnown =>
      have isCreated := numbered.known key target wasKnown
      have meetings := numbered.meetings
      rw [List.append_nil] at meetings
      refine { numbered with meetings := ?_, early := ?_ }
      · rw [← List.cons_append, Search.eraseDups_append_of_subset]
        · exact meetings
        · rw [← meetings] at isCreated
          intro id isTarget
          rw [List.mem_singleton.mp isTarget]
          exact List.mem_eraseDups.mp isCreated
      · intro id member
        exact (numbered.early id member).imp_right fun either =>
          Or.inr (either.resolve_left fun waits =>
            absurd waits.1 List.not_mem_nil)
  | any _ isAny =>
      obtain ⟨_, _, impossible, _⟩ := expands _ _ _ isAny
      cases impossible
  | empty _ isEmpty =>
      obtain ⟨_, _, impossible, _⟩ := expands _ _ _ isEmpty
      cases impossible
  | @expand accepting edges isNew isExpand =>
      obtain ⟨isNext, noneFree, sizeEq⟩ :=
        Store.alloc_of_noneFree numbered.noneFree
      obtain ⟨_, _, same, ascend⟩ := expands _ _ _ isExpand
      cases same
      apply numbered.add within
        (Store.introduces_alloc numbered.grown.sound.toPooled
          (fun node => { node with accepting }) rfl)
        rfl isNext noneFree _ rfl ascend _ grown
      · exact Array.size_modify.trans sizeEq
      · intro other id isFound
        cases (isKnown other id).mp isFound with
        | inl isThis =>
            exact Or.inl isThis.2
        | inr wasKnown =>
            exact Or.inr (numbered.known other id wasKnown)

end Meeting

/-- Entering the edge to the pending node of the node at the last position. -/
theorem Numbered.enter {source target : Nat} {atom : Atom} {node : Node}
    (numbered : Numbered base (position + 1) [target] before)
    (isSource : source = base.slots.size + position)
    (member : source ∈ before.created)
    (isNode : before.store.node source = .ok node)
    (above : ∀ entry ∈ node.transitions.entries, entry.1.name < atom.name) :
    Numbered base (position + 1) [] (before.enter source atom target) := by
  have sourceTargets :
      (before.enter source atom target).store.targetsOf source =
        before.store.targetsOf source ++ [target] := by
    have isAfter : (before.enter source atom target).store.node source =
        .ok { node with
          transitions := node.transitions.insert atom target } := by
      rw [Construction.enter, Store.node_modifyNode, if_pos rfl, isNode]
      rfl
    rw [Store.targetsOf_of_node isAfter, Store.targetsOf_of_node isNode,
      Node.targets, Node.targets, AtomMap.values, AtomMap.values,
      AtomMap.entries_insert_of_above above, List.map_append]
    rfl
  have otherTargets : ∀ id, id ≠ source →
      (before.enter source atom target).store.targetsOf id =
        before.store.targetsOf id := by
    intro id different
    apply Store.targetsOf_congr
    rw [Construction.enter, Store.node_modifyNode, if_neg different]
  have behindBlank : ∀ id ∈ before.created, source < id →
      (before.enter source atom target).store.targetsOf id = [] := by
    intro id isCreated behind
    rw [otherTargets id (Nat.ne_of_gt behind)]
    apply numbered.blank id isCreated
    rw [isSource] at behind
    exact behind
  have ascending : before.created.Pairwise (· < ·) := by
    rw [numbered.created_eq]
    exact List.pairwise_lt_range'
  have longer := flatMap_concat ascending member behindBlank sourceTargets
    fun id _ => otherTargets id
  refine ⟨grown_enter numbered.grown member, numbered.noneFree, ?_,
    numbered.created_eq, numbered.known, numbered.ordered, ?_, ?_, ?_⟩
  · exact Array.size_modify.trans numbered.size_eq
  · intro id isCreated behind
    apply behindBlank id isCreated
    rw [isSource]
    exact behind
  · rw [List.append_nil]
    exact (congrArg (fun ids => (base.slots.size :: ids).eraseDups)
      longer).trans numbered.meetings
  · intro id isCreated
    rcases numbered.early id isCreated with
      isFirst | ⟨isPending, behind⟩ | ⟨parent, isParent, below, leads⟩
    · exact Or.inl isFirst
    · refine Or.inr (Or.inr ⟨source, member, ?_, ?_⟩)
      · rw [isSource]
        exact behind
      · rw [sourceTargets]
        exact List.mem_append_right _ isPending
    · refine Or.inr (Or.inr ⟨parent, isParent, below, ?_⟩)
      by_cases isThis : parent = source
      · rw [isThis] at leads ⊢
        rw [sourceTargets]
        exact List.mem_append_left _ leads
      · rw [otherTargets parent isThis]
        exact leads

section Connecting

variable [Std.TransOrd κ] [Std.LawfulEqOrd κ]

/-- The edges of the node at a position are entered one after the other. The
induction is on the edges that are left; the table has the names of the others,
which come before theirs. -/
theorem Numbered.connect (expands : Expands step) {source : Nat}
    {edges : List (Atom × κ)}
    (numbered : Numbered base (position + 1) [] before)
    (isSource : source = base.slots.size + position)
    (member : source ∈ before.created) (ascend : NamesAscend edges)
    (above : ∀ node, before.store.node source = .ok node →
      ∀ entry ∈ node.transitions.entries, ∀ edge ∈ edges,
        entry.1.name < edge.1.name)
    (result : before.connect step source edges = .ok after) :
    Numbered base (position + 1) [] after := by
  induction edges generalizing before with
  | nil =>
      cases result
      exact numbered
  | cons edge edges inductionHypothesis =>
      obtain ⟨atom, key⟩ := edge
      obtain ⟨atomBelow, restAscend⟩ := List.pairwise_cons.mp ascend
      cases isFound : before.stateOf step key with
      | error fault =>
          rw [Construction.connect, isFound] at result
          cases result
      | ok found =>
          obtain ⟨target, found⟩ := found
          have finds := finds_of_stateOf isFound
          have inRange := (numbered.mem_created_iff source).mp member
          have foundNumbered :=
            finds.numbered expands numbered (by omega)
          have further := finds.further numbered.grown.sound
          obtain ⟨node, isNode, _⟩ := numbered.grown.ordinary source member
          have stillNode := further.keeps source node isNode
          have stillMember : source ∈ found.created := by
            obtain ⟨place, isPlace⟩ := List.getElem?_of_mem member
            rw [getElem?_created, Option.map_eq_some_iff] at isPlace
            obtain ⟨state, isState, same⟩ := isPlace
            rw [← same]
            exact mem_created_of_state (further.states place state isState)
          have nodeBelow : ∀ entry ∈ node.transitions.entries,
              entry.1.name < atom.name :=
            fun entry listed =>
              above node isNode entry listed (atom, key) List.mem_cons_self
          rw [connect_cons isFound] at result
          apply inductionHypothesis
            (foundNumbered.enter isSource stillMember stillNode nodeBelow)
            stillMember restAscend _ result
          intro other isOther entry listed later isLater
          rw [Construction.enter, Store.node_modifyNode, if_pos rfl, stillNode]
            at isOther
          cases isOther
          rw [AtomMap.entries_insert_of_above nodeBelow] at listed
          cases List.mem_append.mp listed with
          | inl wasListed =>
              exact above node isNode entry wasListed later
                (List.mem_cons_of_mem _ isLater)
          | inr isNew =>
              rw [List.mem_singleton.mp isNew]
              exact atomBelow later isLater

/-- Completing a node numbers those that are met there for the first time. -/
theorem Numbered.complete (expands : Expands step) {source : Nat}
    {edges : List (Atom × κ)} (numbered : Numbered base position [] before)
    (isState : before.states[position]? = some (source, edges))
    (result : before.connect step source edges = .ok after) :
    Numbered base (position + 1) [] after := by
  have member := mem_created_of_state isState
  have within := (Array.getElem?_eq_some_iff.mp isState).1
  have isSource : source = base.slots.size + position := by
    have isPlace := getElem?_created before position
    rw [isState, numbered.created_eq, List.getElem?_range' within] at isPlace
    simpa using (Option.some.inj isPlace).symm
  apply numbered.advance.connect expands isSource member
    (numbered.ordered _ (Array.mem_of_getElem? isState)) _ result
  intro node isNode entry listed
  have noTargets := numbered.blank source member (Nat.le_of_eq isSource.symm)
  rw [Store.targetsOf_of_node isNode, Node.targets, AtomMap.values,
    List.map_eq_nil_iff] at noTargets
  rw [noTargets] at listed
  exact absurd listed List.not_mem_nil

/-- The start gets the first of the new numbers. -/
theorem numbered_start (expands : Expands step) (sound : base.Sound)
    (noneFree : base.pool = []) {start : κ} {root : Nat}
    (finds : Finds step start ⟨base, ∅, #[]⟩ root found) :
    root = base.slots.size ∧ Numbered base 0 [] found := by
  have grown := finds.grown (Store.grown_start sound)
  have isKnown := finds.known_iff
  cases finds with
  | known impossible =>
      simp at impossible
  | any _ isAny =>
      obtain ⟨_, _, impossible, _⟩ := expands _ _ _ isAny
      cases impossible
  | empty _ isEmpty =>
      obtain ⟨_, _, impossible, _⟩ := expands _ _ _ isEmpty
      cases impossible
  | @expand accepting edges _ isExpand =>
      obtain ⟨isNext, stillNoneFree, sizeEq⟩ :=
        Store.alloc_of_noneFree noneFree
      obtain ⟨_, _, same, ascend⟩ := expands _ _ _ isExpand
      cases same
      have introduces := Store.introduces_alloc sound.toPooled
        (fun node => { node with accepting }) rfl
      have isNew : (base.alloc.2.modifyNode base.alloc.1 fun node =>
          { node with accepting }).node base.alloc.1 = .ok { accepting } := by
        rw [introduces.node_eq, if_pos rfl]
      have noTargets : Store.targetsOf
          (base.alloc.2.modifyNode base.alloc.1 fun node =>
            { node with accepting }) base.alloc.1 = [] :=
        Store.targetsOf_of_node isNew
      refine ⟨isNext, grown, stillNoneFree, Array.size_modify.trans sizeEq,
        congrArg (fun id => [id]) isNext, ?_, ?_, ?_, ?_, ?_⟩
      · intro key id isFound
        cases (isKnown key id).mp isFound with
        | inl isThis =>
            rw [isThis.2]
            exact List.mem_singleton_self _
        | inr impossible =>
            simp at impossible
      · intro state member
        rw [Array.mem_singleton.mp member]
        exact ascend
      · intro id member _
        rw [List.mem_singleton.mp member]
        exact noTargets
      · change (base.slots.size :: ([base.alloc.1].flatMap _ ++ [])).eraseDups
          = [base.alloc.1]
        rw [List.flatMap_singleton, noTargets, isNext]
        rfl
      · intro id member
        rw [List.mem_singleton.mp member]
        exact Or.inl isNext

end Connecting

end Construction

/-! ## The order in which nodes are made and listed -/

namespace Store

open Construction (Numbered Expands NamesAscend)

variable {κ : Type u} [Ord κ] [Std.TransOrd κ] [Std.LawfulEqOrd κ]
  {base after : Store} {start : κ}
  {step : Store → κ → Except Fault (SubsetStep κ)} {root : Nat}

/-- A construction makes its nodes in the order of a breadth-first search from
the first one. -/
theorem numbered_of_determinize (expands : Expands step) (sound : base.Sound)
    (noneFree : base.pool = [])
    (isResult : base.determinize start step = .ok (.ok root, after)) :
    root = base.slots.size ∧ ∃ position, ∃ construction : Construction κ,
      after = construction.store ∧
      Numbered base position [] construction := by
  obtain ⟨other, position, construction, holds, isAfter⟩ :=
    exists_position_of_determinize
      (motive := fun root position construction =>
        root = base.slots.size ∧ Numbered base position [] construction)
      (fun _ _ finds =>
        Construction.numbered_start expands sound noneFree finds)
      (fun holds isState connected =>
        ⟨holds.1, holds.2.complete expands isState connected⟩)
      isResult
  cases isAfter with
  | inl stays =>
      obtain ⟨isRoot, same⟩ := stays
      cases isRoot
      exact ⟨holds.1, position, construction, same, holds.2⟩
  | inr givenBack =>
      cases givenBack.1

end Store

/-- The numbers of the nodes that were made are the plan of the search. -/
theorem Construction.Numbered.plan {κ : Type u} [Ord κ] {base : Store}
    {position : Nat} {construction : Construction κ}
    (numbered : Numbered base position [] construction) :
    Search.Plan construction.store.reader.targets base.slots.size
      construction.created construction.store.targetsOf where
  answers id member := by
    obtain ⟨node, found, _⟩ := numbered.grown.ordinary id member
    rw [Store.targets_reader found, Store.targetsOf_of_node found]
  nodup := numbered.grown.nodup
  meetings := by
    have meetings := numbered.meetings
    rwa [List.append_nil] at meetings
  early earlier id later isOrder := by
    have member : id ∈ construction.created := by
      rw [isOrder]
      exact List.mem_append_right _ List.mem_cons_self
    refine (numbered.early id member).imp_right fun either => ?_
    obtain ⟨parent, isParent, below, leads⟩ :=
      either.resolve_left fun waits => absurd waits.1 List.not_mem_nil
    refine ⟨parent, ?_, leads⟩
    have ascending : construction.created.Pairwise (· < ·) := by
      rw [numbered.created_eq]
      exact List.pairwise_lt_range'
    rw [isOrder] at isParent ascending
    obtain ⟨_, laterAscending, _⟩ := List.pairwise_append.mp ascending
    cases List.mem_append.mp isParent with
    | inl isEarlier =>
        exact isEarlier
    | inr notEarlier =>
        exfalso
        cases List.mem_cons.mp notEarlier with
        | inl same =>
            exact Nat.lt_irrefl _ (same ▸ below)
        | inr isLater =>
            have above := (List.pairwise_cons.mp laterAscending).1 parent isLater
            exact Nat.lt_asymm below above

theorem Construction.Numbered.reachable_eq {κ : Type u} [Ord κ]
    {base : Store} {position : Nat} {construction : Construction κ}
    (numbered : Numbered base position [] construction) :
    construction.store.reader.reachable base.slots.size =
      .ok construction.created := by
  have enough : construction.created.length ≤
      construction.store.slots.size + 1 := by
    rw [numbered.created_eq, List.length_range', numbered.size_eq]
    omega
  obtain ⟨visited, isVisited, inOrder⟩ :=
    numbered.plan.exists_breadthFirst enough
  rw [Reader.reachable_eq]
  exact (congrArg (· >>= fun visited => Except.ok visited.inOrder)
    isVisited).trans (congrArg Except.ok inOrder)

namespace Store

open Construction (Numbered Expands NamesAscend)

/-! ## Compilations -/

variable {store after : Store} {model : Model} {start : Nat}

private theorem map_fst_of_mapM {β γ : Type} {entries : List (Atom × β)}
    {compute : β → Except Fault γ} {edges : List (Atom × γ)}
    (isEdges : entries.mapM (fun (atom, value) => do
      return (atom, ← compute value)) = .ok edges) :
    edges.map Prod.fst = entries.map Prod.fst := by
  induction entries generalizing edges with
  | nil =>
      cases isEdges
      rfl
  | cons entry entries inductionHypothesis =>
      rw [List.mapM_cons, bind_eq_ok_iff] at isEdges
      obtain ⟨first, isFirst, isEdges⟩ := isEdges
      rw [bind_eq_ok_iff] at isFirst isEdges
      obtain ⟨rest, isRest, same⟩ := isEdges
      obtain ⟨value, _, sameFirst⟩ := isFirst
      cases same
      cases sameFirst
      rw [List.map_cons, List.map_cons, inductionHypothesis isRest]

/-- The edges of a set are entered in order of name. -/
theorem expands_setStep (graph : FragmentGraph) (exit : Nat) :
    Expands fun (_ : Store) set => graph.setStep exit set := by
  intro _ set answer isStep
  change graph.setStep exit set = .ok answer at isStep
  rw [FragmentGraph.setStep, bind_eq_ok_iff] at isStep
  obtain ⟨table, _, isStep⟩ := isStep
  rw [bind_eq_ok_iff] at isStep
  obtain ⟨edges, isEdges, same⟩ := isStep
  cases same
  refine ⟨_, edges, rfl, ?_⟩
  have ascending : (table.entries.map Prod.fst).Pairwise
      fun left right => left.name < right.name :=
    table.ascending.map _ fun _ _ below => below
  rw [← map_fst_of_mapM isEdges, List.pairwise_map] at ascending
  exact ascending

theorem exists_setStep_of_compileModel
    {result : Except StateLimitExceeded Nat}
    (isResult : store.compileModel model = .ok (result, after)) :
    ∃ (graph : FragmentGraph) (exit : Nat) (first : List Nat),
      store.determinize first (fun _ set => graph.setStep exit set) =
        .ok (result, after) := by
  rw [compileModel_eq, bind_eq_ok_iff] at isResult
  obtain ⟨⟨fragment, graph⟩, _, isResult⟩ := isResult
  change store.compile graph fragment = .ok (result, after) at isResult
  rw [compile, bind_eq_ok_iff] at isResult
  obtain ⟨first, _, isResult⟩ := isResult
  exact ⟨graph, fragment.exit, first, isResult⟩

/-- The line of a number among consecutive ones. -/
theorem idxOf_range' {first count id : Nat} (above : first ≤ id)
    (below : id < first + count) :
    (List.range' first count).idxOf id = id - first := by
  have within : id - first < (List.range' first count).length := by
    rw [List.length_range']
    omega
  have isThere : (List.range' first count)[id - first] = id := by
    rw [List.getElem_range', Nat.one_mul]
    omega
  have nodup : (List.range' first count).Nodup := List.nodup_range'
  have isPlace := nodup.idxOf_getElem (id - first) within
  rwa [isThere] at isPlace

/-- In the listing of consecutive numbers a target stands with its number,
counted from the first one. -/
theorem getElem?_lineTexts_range' {count line : Nat} {node : Node}
    (within : line < count) (found : store.node (start + line) = .ok node)
    (inside : ∀ target ∈ node.targets,
      start ≤ target ∧ target < start + count) :
    ((List.range' start count).zipIdx.map fun entry =>
      Reader.lineText (Position.view ⟨store.freeze, entry.1⟩) entry.2
        (List.range' start count).idxOf)[line]? =
      some (Reader.lineText node line fun id => id - start) := by
  have isPlace : (List.range' start count)[line]? = some (start + line) := by
    rw [List.getElem?_range' within, Nat.one_mul]
  rw [List.getElem?_map, List.getElem?_zipIdx, isPlace, Option.map_some,
    Option.map_some, Nat.zero_add, view_position found]
  refine congrArg some (Reader.lineText_congr line rfl rfl ?_)
  apply List.map_congr_left
  intro pair listed
  obtain ⟨above, below⟩ := inside pair.2 <|
    (node.transitions.mem_values_iff _).mpr
      ⟨pair.1, (node.transitions.mem_pairs_iff _ _).mp listed⟩
  rw [idxOf_range' above below]

/-- Where no freed slot waits, a compilation makes the nodes with the numbers
behind those of the store. All of them are reached from the first one, and the
listing has their lines in the order of their numbers. -/
theorem compileModel_numbers (reached : store.Reached)
    (noneFree : store.pool = [])
    (isResult : store.compileModel model = .ok (.ok start, after)) :
    ∃ count,
      after.liveCount = store.liveCount + count ∧
      start = store.slots.size ∧
      (∀ id, after.Live id ↔
        store.Live id ∨ (start ≤ id ∧ id < start + count)) ∧
      (∀ id, after.Reaches start id ↔ start ≤ id ∧ id < start + count) ∧
      after.reader.reachable start = .ok (List.range' start count) ∧
      ∃ lines, after.listing start = .ok (String.join lines) ∧
        lines.length = count ∧
        ∀ line, line < count → ∃ node,
          after.node (start + line) = .ok node ∧
          lines[line]? =
            some (Reader.lineText node line fun id => id - start) := by
  obtain ⟨graph, exit, first, isBuilt⟩ := exists_setStep_of_compileModel isResult
  obtain ⟨isStart, position, construction, same, numbered⟩ :=
    numbered_of_determinize (expands_setStep graph exit) reached.sound noneFree
      isBuilt
  subst same
  have grown := numbered.grown
  have inRange := numbered.mem_created_iff
  rw [← isStart] at inRange
  have isLive := live_compileModel_iff reached.sound isResult grown
  have isOrder : construction.store.reader.reachable start =
      .ok construction.created := isStart ▸ numbered.reachable_eq
  have isMade : start ∈ construction.created := by
    rw [← numbered.plan.meetings, List.mem_eraseDups, isStart]
    exact List.mem_cons_self
  have intact : construction.store.Intact start :=
    (Reached.compileModel reached isResult).intact numbered.noneFree
      ((isLive start).mpr (Or.inr isMade)).lt_size
  have reaches : ∀ id, id ∈ construction.created ↔
      construction.store.Reaches start id := by
    obtain ⟨order, sameOrder, _, _, member⟩ := intact.exists_reachable
    rw [isOrder] at sameOrder
    cases sameOrder
    exact member
  have isListing := listing_of_reachable isOrder fun id member =>
    (isLive id).mpr (Or.inr member)
  have counted := liveCount_compileModel reached.sound isResult grown
  rw [numbered.created_eq, List.length_range'] at counted
  refine ⟨construction.states.size, counted, isStart, ?_, ?_, ?_, _, isListing,
    ?_, ?_⟩
  · intro id
    rw [isLive, inRange]
  · intro id
    rw [← reaches, inRange]
  · rw [isOrder, numbered.created_eq, isStart]
  · rw [List.length_map, List.length_zipIdx, numbered.created_eq,
      List.length_range']
  · intro line within
    have member : start + line ∈ construction.created :=
      (inRange _).mpr ⟨Nat.le_add_right _ _, Nat.add_lt_add_left within _⟩
    obtain ⟨node, found, _⟩ := grown.ordinary _ member
    refine ⟨node, found, ?_⟩
    rw [numbered.created_eq, ← isStart]
    apply getElem?_lineTexts_range' within found
    intro target isTarget
    exact (inRange target).mp <| (reaches target).mpr <|
      Reaches.next ((reaches _).mp member) ⟨node, found, isTarget⟩

/-- A store with one node, which accepts everything. -/
theorem compileModel_numbers_choice :
    ∃ (store after : Store) (model : Model),
      store.Reached ∧ store.pool = [] ∧ store.slots.size = 1 ∧
      model = .choice
        [.sequence [.leaf (.ofElement "b"), .leaf (.ofElement "c")],
          .sequence [.leaf (.ofElement "a"), .leaf (.ofElement "d")]] ∧
      store.compileModel model = .ok (.ok 1, after) ∧
      after.listing 1 =
        .ok "D0: a → D1, b → D2\nD1: d → D3\nD2: c → D3\nD3 ✓: ∅\n" ∧
      ∃ count, count = 4 ∧
        after.liveCount = store.liveCount + count ∧
        (∀ id, after.Live id ↔ store.Live id ∨ (1 ≤ id ∧ id < 1 + count)) ∧
        (∀ id, after.Reaches 1 id ↔ 1 ≤ id ∧ id < 1 + count) ∧
        after.reader.reachable 1 = .ok (List.range' 1 count) := by
  have made : Reached _ := .anyNode .new
  have isResult : compileModel (anyNode {}).2 (.choice
      [.sequence [.leaf (.ofElement "b"), .leaf (.ofElement "c")],
        .sequence [.leaf (.ofElement "a"), .leaf (.ofElement "d")]]) =
      .ok (.ok 1, _) := rfl
  obtain ⟨count, counted, _, live, reaches, order, _⟩ :=
    compileModel_numbers made rfl isResult
  have isCount : count = 4 := by
    have isFive : 5 = 1 + count := counted
    omega
  exact ⟨_, _, _, made, rfl, rfl, rfl, isResult, rfl, count, isCount, counted,
    live, reaches, order⟩

end Store

end ContentModel.Automaton
