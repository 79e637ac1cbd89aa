import ContentModel.Proofs.Automaton.Entries
import ContentModel.Proofs.Automaton.Freezing

/-!
# Listings as canonical forms

A listing forgets how nodes are numbered and nothing else. Main statement:
`Legible.canonical`, two automata have the same listing exactly if a renaming
takes the nodes that the one start reaches to those of the other, with what
they are and where names lead from them. A listing has a line for each node
that is reached, and automata with the same listing accept the same words.
-/

namespace ContentModel.Automaton

namespace Store

variable {store left right : Store} {start leftStart rightStart : Nat}

/-! ## The lines of a listing -/

/-- The entry of the node of a number, when the nodes are listed in this
order. -/
def entry (store : Store) (order : List Nat) (id : Nat) : Entry :=
  (Position.view ⟨store.freeze, id⟩).entry order.idxOf

/-- The text lists the nodes that are reached, each in its place. -/
structure Lists (store : Store) (start : Nat) (order : List Nat)
    (text : String) : Prop where
  first : [start] <+: order
  nodup : order.Nodup
  mem_iff : ∀ id, id ∈ order ↔ store.Reaches start id
  listing : store.listing start = .ok text
  chars : text.toList = Entry.pageChars 0 (order.map (store.entry order))

theorem targets_reader {id : Nat} {node : Node}
    (found : store.node id = .ok node) :
    store.reader.targets id = .ok node.targets := by
  rw [Reader.targets]
  change (store.node id >>= fun node => Except.ok node.targets) = _
  rw [found]
  rfl

theorem leads_targets_iff (id next : Nat) :
    Search.Leads store.reader.targets id next ↔ store.Step id next := by
  constructor
  · intro leads
    obtain ⟨found, answer, member⟩ := leads
    obtain ⟨node, isNode, same⟩ := bind_eq_ok_iff.mp answer
    cases same
    exact ⟨node, isNode, member⟩
  · intro step
    obtain ⟨node, isNode, member⟩ := step
    exact ⟨node.targets, targets_reader isNode, member⟩

theorem reachable_targets_iff (id : Nat) :
    Search.Reachable store.reader.targets [start] id ↔
      store.Reaches start id := by
  have sameSteps : Search.Leads store.reader.targets = store.Step := by
    funext id next
    exact propext (leads_targets_iff id next)
  rw [Search.Reachable, sameSteps]
  simp only [List.mem_singleton, exists_eq_left]
  rfl

/-- Where no node that is reached was freed, a listing comes by all of them. -/
theorem Intact.exists_reachable (intact : store.Intact start) :
    ∃ order, store.reader.reachable start = .ok order ∧
      [start] <+: order ∧ order.Nodup ∧
      ∀ id, id ∈ order ↔ store.Reaches start id := by
  have answers : ∀ id, Search.Reachable store.reader.targets [start] id →
      Search.Answers store.reader.targets id ∧
        id ∈ List.range store.slots.size := by
    intro id reachable
    obtain ⟨node, found⟩ := intact id ((reachable_targets_iff id).mp reachable)
    exact ⟨⟨node.targets, targets_reader found⟩,
      List.mem_range.mpr (bounds_reader store id node found)⟩
  have enough : (List.range store.slots.size).length ≤
      store.slots.size + 1 := by
    rw [List.length_range]
    exact Nat.le_succ _
  obtain ⟨visited, isVisited, finished⟩ :=
    Search.exists_breadthFirst answers enough
  refine ⟨visited.inOrder, ?_,
    Search.prefix_inOrder_breadthFirst isVisited,
    List.nodup_reverse.mpr finished.trailNodup, ?_⟩
  · rw [Reader.reachable_eq]
    exact congrArg (· >>= fun visited => Except.ok visited.inOrder) isVisited
  · intro id
    rw [Visited.inOrder, List.mem_reverse, finished.mem_trail_iff,
      finished.contains_iff, reachable_targets_iff]

theorem lineAt_reader {order : List Nat} {id : Nat} {node : Node}
    (found : store.node id = .ok node) (line : Nat) :
    store.reader.lineAt order (id, line) =
      .ok (Reader.lineText (Position.view ⟨store.freeze, id⟩) line
        order.idxOf) := by
  rw [Reader.lineAt, view_position found]
  change (store.node id >>= fun node =>
    Except.ok (Reader.lineText node line order.idxOf)) = _
  rw [found]
  rfl

/-- The lines of a listing when the nodes are reached in this order. -/
theorem listing_of_reachable {order : List Nat}
    (isOrder : store.reader.reachable start = .ok order)
    (live : ∀ id ∈ order, store.Live id) :
    store.listing start = .ok (String.join (order.zipIdx.map fun entry =>
      Reader.lineText (Position.view ⟨store.freeze, entry.1⟩) entry.2
        order.idxOf)) := by
  have each : ∀ entry ∈ order.zipIdx, store.reader.lineAt order entry =
      .ok (Reader.lineText (Position.view ⟨store.freeze, entry.1⟩) entry.2
        order.idxOf) := by
    intro entry listed
    obtain ⟨node, found⟩ := live entry.1 (List.fst_mem_of_mem_zipIdx listed)
    exact lineAt_reader found entry.2
  rw [Store.listing, Reader.listing_eq, isOrder, ok_bind,
    mapM_eq_ok_of_forall each]
  rfl

/-- Lines are put down one after the other. -/
theorem toList_join_lineTexts (nodeOf : Nat → Node) (lineOf : Nat → Nat)
    (ids : List Nat) (line : Nat) :
    (String.join ((ids.zipIdx line).map fun entry =>
      Reader.lineText (nodeOf entry.1) entry.2 lineOf)).toList =
      Entry.pageChars line (ids.map fun id => (nodeOf id).entry lineOf) := by
  induction ids generalizing line with
  | nil =>
      rfl
  | cons id ids inductionHypothesis =>
      rw [List.zipIdx_cons, List.map_cons, String.join_cons,
        String.toList_append, inductionHypothesis, Entry.toList_lineText]
      simp [Entry.pageChars]

theorem Intact.exists_lists (intact : store.Intact start) :
    ∃ order text, store.Lists start order text := by
  obtain ⟨order, isOrder, first, nodup, member⟩ := intact.exists_reachable
  have isListing := listing_of_reachable isOrder fun id listed =>
    intact id ((member id).mp listed)
  exact ⟨order, _, first, nodup, member, isListing,
    toList_join_lineTexts (fun id => Position.view ⟨store.freeze, id⟩)
      order.idxOf order 0⟩

/-! ## Automata that can be read off their listings -/

/-- Nothing that is reached was freed, a node with a flag has that one alone
and no steps, and no name holds a sign of the notation. -/
structure Legible (store : Store) (start : Nat) : Prop where
  intact : store.Intact start
  notBoth : ∀ id node, store.Reaches start id → store.node id = .ok node →
    ¬ (node.isAny = true ∧ node.isEmpty = true)
  bare : ∀ id node, store.Reaches start id → store.node id = .ok node →
    node.isAny = true ∨ node.isEmpty = true → node.transitions = ∅
  named : ∀ id node, store.Reaches start id → store.node id = .ok node →
    ∀ atom ∈ node.transitions.atoms, ListableName atom.name

/-- No calls set both flags of a node, so of a store that came to be by calls
this need not be asked. -/
theorem Reached.legible (reached : store.Reached)
    (intact : store.Intact start)
    (bare : ∀ id node, store.Reaches start id → store.node id = .ok node →
      node.isAny = true ∨ node.isEmpty = true → node.transitions = ∅)
    (named : ∀ id node, store.Reaches start id → store.node id = .ok node →
      ∀ atom ∈ node.transitions.atoms, ListableName atom.name) :
    store.Legible start :=
  ⟨intact, fun _ _ _ found => reached.sound.notBoth found, bare, named⟩

theorem Legible.plain (legible : store.Legible start) (order : List Nat)
    {id : Nat} (reaches : store.Reaches start id) :
    (store.entry order id).Plain := by
  obtain ⟨node, found⟩ := legible.intact id reaches
  rw [entry, view_position found]
  constructor
  · intro step isStep
    obtain ⟨pair, listed, same⟩ := List.mem_map.mp isStep
    obtain ⟨entry, isEntry, samePair⟩ := List.mem_map.mp listed
    cases same
    cases samePair
    exact legible.named id node reaches found entry.1
      (List.mem_map_of_mem isEntry)
  · intro notOrdinary
    rw [Node.entry, legible.bare id node reaches found
      (Node.role_ne_ordinary_iff.mp notOrdinary)]
    rfl

/-- A listing, before and after publishing, with one line for each node that is
reached. -/
structure Shows (store : Store) (start : Nat) (text : String) : Prop where
  listing : store.listing start = .ok text
  published : store.freeze.listing start = .ok text
  lines : ∃ lines : List String,
    text = String.join (lines.map (· ++ "\n")) ∧
    (∀ line ∈ lines, '\n' ∉ line.toList) ∧
    (lines.length : ℕ∞) = {id | store.Reaches start id}.encard

/-- The lines of entries that can be read back. -/
theorem Entry.exists_lines {entries : List Entry}
    (plain : ∀ entry ∈ entries, entry.Plain) (line : Nat) :
    ∃ lines : List String,
      Entry.pageChars line entries =
        (String.join (lines.map (· ++ "\n"))).toList ∧
      (∀ line ∈ lines, '\n' ∉ line.toList) ∧
      lines.length = entries.length := by
  induction entries generalizing line with
  | nil =>
      exact ⟨[], rfl, fun _ impossible => absurd impossible List.not_mem_nil,
        rfl⟩
  | cons entry entries inductionHypothesis =>
      have ownPlain := plain entry List.mem_cons_self
      obtain ⟨lines, sameChars, noBreak, sameLength⟩ :=
        inductionHypothesis (fun other member =>
          plain other (List.mem_cons_of_mem entry member)) (line + 1)
      refine ⟨String.ofList (entry.chars line) :: lines, ?_, ?_, ?_⟩
      · rw [Entry.pageChars, sameChars, List.map_cons, String.join_cons]
        simp
      · intro other member
        cases List.mem_cons.mp member with
        | inl isFirst =>
            rw [isFirst, String.toList_ofList]
            exact ownPlain.break_notMem line
        | inr later =>
            exact noBreak other later
      · rw [List.length_cons, sameLength, List.length_cons]

theorem Lists.encard_eq {order : List Nat} {text : String}
    (lists : store.Lists start order text) :
    (order.length : ℕ∞) = {id | store.Reaches start id}.encard := by
  have sameSet : {id | store.Reaches start id} = (order.toFinset : Set Nat) := by
    ext id
    rw [Set.mem_ofPred_eq, ← lists.mem_iff, List.coe_toFinset,
      Set.mem_ofPred_eq]
  rw [sameSet, Set.encard_coe_eq_coe_finsetCard,
    List.toFinset_card_of_nodup lists.nodup]

theorem Lists.shows {order : List Nat} {text : String}
    (lists : store.Lists start order text) (legible : store.Legible start) :
    store.Shows start text := by
  have plain : ∀ entry ∈ order.map (store.entry order), entry.Plain := by
    intro entry member
    obtain ⟨id, listed, same⟩ := List.mem_map.mp member
    rw [← same]
    exact legible.plain order ((lists.mem_iff id).mp listed)
  obtain ⟨lines, sameChars, noBreak, sameLength⟩ := Entry.exists_lines plain 0
  obtain ⟨other, before, after⟩ := legible.intact.exists_listing
  rw [lists.listing] at before
  cases before
  refine ⟨lists.listing, after, lines, ?_, noBreak, ?_⟩
  · rw [← String.toList_inj, lists.chars, sameChars]
  · rw [sameLength, List.length_map, lists.encard_eq]

/-! ## Renamings -/

/-- A renaming of the nodes that the one start reaches to those of the other:
it keeps what a node is and, name by name, where it leads. -/
structure Renames (left right : Store) (leftStart rightStart : Nat)
    (rename : Nat → Nat) : Prop where
  bijective : Set.BijOn rename {id | left.Reaches leftStart id}
    {id | right.Reaches rightStart id}
  start : rename leftStart = rightStart
  node : ∀ id, left.Reaches leftStart id → ∃ node other,
    left.node id = .ok node ∧ right.node (rename id) = .ok other ∧
    other.accepting = node.accepting ∧
    (other.isAny = node.isAny ∧ other.isEmpty = node.isEmpty) ∧
    ∀ name, other.transitions.find? name =
      (node.transitions.find? name).map rename

section Renamed

variable {rename : Nat → Nat}
  (renames : Renames left right leftStart rightStart rename)

include renames

/-- Both sides draw the graph of the left one. -/
theorem Renames.draws (leftIntact : left.Intact leftStart) :
    right.reader.Draws left.outline {id | left.Reaches leftStart id}
      rename where
  injective := renames.bijective.injOn
  closed := (leftIntact.draws (fun _ _ found => found)
    (bounds_reader left)).closed
  node id reaches := by
    obtain ⟨node, other, found, isOther, accepting, flags, table⟩ :=
      renames.node id reaches
    refine ⟨other, isOther, ?_⟩
    rw [outline, view_position found]
    exact ⟨accepting, Node.role_congr flags, table⟩
  lt_size id reaches := by
    obtain ⟨_, other, _, isOther, _⟩ := renames.node id reaches
    exact bounds_reader right (rename id) other isOther

theorem Renames.exists_listing (leftIntact : left.Intact leftStart) :
    ∃ text, left.listing leftStart = .ok text ∧
      right.listing rightStart = .ok text := by
  have leftDraws := leftIntact.draws (fun _ _ found => found)
    (bounds_reader left)
  rw [← renames.start]
  exact Reader.exists_listing_mirrored leftDraws (renames.draws leftIntact)
    (left.reaches_start leftStart)

/-- From a node and from its renamed node the same words are accepted. The
induction is on the word. -/
theorem Renames.mem_language_iff (word : List String) {id : Nat}
    (reaches : left.Reaches leftStart id) :
    word ∈ right.reader.language (rename id) ↔
      word ∈ left.reader.language id := by
  induction word generalizing id with
  | nil =>
      obtain ⟨node, other, found, isOther, accepting, _⟩ :=
        renames.node id reaches
      rw [Reader.nil_mem_language_iff isOther, accepting,
        Reader.nil_mem_language_iff found]
  | cons name word inductionHypothesis =>
      obtain ⟨node, other, found, isOther, _, flags, table⟩ :=
        renames.node id reaches
      have role := Node.role_congr flags
      rw [Reader.cons_mem_language_iff isOther,
        Reader.cons_mem_language_iff found]
      cases isRole : node.role with
      | any =>
          rw [isRole] at role
          simp only [Node.advance_eq, isRole, role, Option.some.injEq,
            exists_eq_left']
          exact inductionHypothesis reaches
      | empty =>
          rw [isRole] at role
          simp [Node.advance_eq, isRole, role]
      | ordinary =>
          rw [isRole] at role
          simp only [Node.advance_eq, isRole, role, table,
            Option.map_eq_some_iff, exists_exists_and_eq_and]
          apply exists_congr
          intro next
          rw [and_congr_right_iff]
          intro leads
          have isTarget : next ∈ node.targets :=
            (node.transitions.mem_values_iff next).mpr ⟨name, leads⟩
          exact inductionHypothesis
            (Reaches.next reaches ⟨node, found, isTarget⟩)

theorem Renames.exists_language (leftIntact : left.Intact leftStart)
    (rightIntact : right.Intact rightStart) :
    ∃ language, left.Accepts leftStart language ∧
      right.Accepts rightStart language := by
  have same : right.reader.language rightStart =
      left.reader.language leftStart := by
    ext word
    rw [← renames.start]
    exact renames.mem_language_iff word (left.reaches_start leftStart)
  refine ⟨left.reader.language leftStart, leftIntact.accepts_language, ?_⟩
  rw [← same]
  exact rightIntact.accepts_language

end Renamed

/-! ## Back from equal listings -/

/-- Two lists without repetitions, of one length, are renamings of each other
that keep the places. -/
private theorem exists_rename {left right : List Nat} (leftNodup : left.Nodup)
    (rightNodup : right.Nodup) (sameLength : left.length = right.length) :
    ∃ rename : Nat → Nat, left.map rename = right ∧
      ∀ id ∈ left, right.idxOf (rename id) = left.idxOf id := by
  refine ⟨fun id => right.getD (left.idxOf id) 0, ?_, ?_⟩
  · apply List.ext_getElem
    · rw [List.length_map, sameLength]
    · intro place _ within
      rw [List.getElem_map, leftNodup.idxOf_getElem,
        ← List.getElem_eq_getD]
  · intro id member
    have within : left.idxOf id < right.length :=
      sameLength ▸ List.idxOf_lt_length_of_mem member
    have isThere : right.getD (left.idxOf id) 0 = right[left.idxOf id] :=
      (List.getElem_eq_getD 0).symm
    change right.idxOf (right.getD (left.idxOf id) 0) = left.idxOf id
    rw [isThere, rightNodup.idxOf_getElem]

private theorem eq_map_rename {left right : Option Nat}
    {leftLine rightLine rename : Nat → Nat}
    (sameLine : left.map leftLine = right.map rightLine)
    (sameNode : ∀ next ∈ left, ∀ other ∈ right,
      leftLine next = rightLine other → rename next = other) :
    right = left.map rename := by
  cases isLeft : left with
  | none =>
      rw [isLeft] at sameLine
      exact Option.map_eq_none_iff.mp sameLine.symm
  | some next =>
      rw [isLeft] at sameLine
      obtain ⟨other, isRight, same⟩ :=
        Option.map_eq_some_iff.mp sameLine.symm
      rw [isRight, Option.map_some,
        sameNode next isLeft other isRight same.symm]

/-- Tables whose steps are written alike lead, name by name, to the same
lines. -/
theorem map_find?_eq_of_steps_eq {leftNode rightNode : Node}
    {leftLine rightLine : Nat → Nat}
    (same : (leftNode.entry leftLine).steps =
      (rightNode.entry rightLine).steps) (name : String) :
    (leftNode.transitions.find? name).map leftLine =
      (rightNode.transitions.find? name).map rightLine := by
  rw [Node.entry, Node.entry] at same
  simp only [← AtomMap.pairs_map] at same
  rw [← AtomMap.find?_map, ← AtomMap.find?_map]
  apply Option.ext
  intro line
  rw [← AtomMap.mem_pairs_iff, ← AtomMap.mem_pairs_iff, same]

/-- If two automata list the same entries, the nodes in the same places
correspond to each other. -/
theorem exists_renames_of_entries_eq (leftLegible : left.Legible leftStart)
    (rightLegible : right.Legible rightStart) {leftOrder rightOrder : List Nat}
    {leftText rightText : String}
    (leftLists : left.Lists leftStart leftOrder leftText)
    (rightLists : right.Lists rightStart rightOrder rightText)
    (same : leftOrder.map (left.entry leftOrder) =
      rightOrder.map (right.entry rightOrder)) :
    ∃ rename, Renames left right leftStart rightStart rename := by
  have sameLength : leftOrder.length = rightOrder.length := by
    simpa using congrArg List.length same
  obtain ⟨rename, isRight, samePlace⟩ :=
    exists_rename leftLists.nodup rightLists.nodup sameLength
  have sameEntry : ∀ id ∈ leftOrder,
      left.entry leftOrder id = right.entry rightOrder (rename id) := by
    have renamed := congrArg (List.map (right.entry rightOrder)) isRight
    rw [List.map_map] at renamed
    rw [← List.map_inj_left, same]
    exact renamed.symm
  refine ⟨rename, ?_, ?_, ?_⟩
  · have sameLeft : {id | left.Reaches leftStart id} = {id | id ∈ leftOrder} :=
      Set.ext fun id => (leftLists.mem_iff id).symm
    have sameRight : {id | right.Reaches rightStart id} =
        {id | id ∈ rightOrder} :=
      Set.ext fun id => (rightLists.mem_iff id).symm
    rw [sameLeft, sameRight]
    refine ⟨?_, ?_, ?_⟩
    · intro id member
      rw [Set.mem_ofPred_eq, ← isRight]
      exact List.mem_map_of_mem member
    · intro first firstMember second secondMember sameName
      have firstPlace := samePlace first firstMember
      rw [sameName, samePlace second secondMember] at firstPlace
      exact (List.idxOf_inj firstMember).mp firstPlace.symm
    · intro id member
      rw [Set.mem_ofPred_eq, ← isRight] at member
      exact List.mem_map.mp member
  · obtain ⟨leftRest, isLeftOrder⟩ := leftLists.first
    obtain ⟨rightRest, isRightOrder⟩ := rightLists.first
    rw [← isLeftOrder, ← isRightOrder] at isRight
    exact (List.cons.inj isRight).1
  · intro id reaches
    have member := (leftLists.mem_iff id).mpr reaches
    have otherReaches : right.Reaches rightStart (rename id) := by
      rw [← rightLists.mem_iff, ← isRight]
      exact List.mem_map_of_mem member
    obtain ⟨node, found⟩ := leftLegible.intact id reaches
    obtain ⟨other, isOther⟩ := rightLegible.intact (rename id) otherReaches
    have sameEntries := sameEntry id member
    rw [entry, entry, view_position found, view_position isOther]
      at sameEntries
    refine ⟨node, other, found, isOther,
      (congrArg Entry.accepting sameEntries).symm,
      Node.flags_congr (leftLegible.notBoth id node reaches found)
        (rightLegible.notBoth (rename id) other otherReaches isOther)
        (congrArg Entry.role sameEntries).symm, ?_⟩
    intro name
    apply eq_map_rename
      (map_find?_eq_of_steps_eq (congrArg Entry.steps sameEntries) name)
    intro next leads otherNext otherLeads sameLine
    have isTarget : next ∈ node.targets :=
      (node.transitions.mem_values_iff next).mpr ⟨name, leads⟩
    have isOtherTarget : otherNext ∈ other.targets :=
      (other.transitions.mem_values_iff otherNext).mpr ⟨name, otherLeads⟩
    have nextMember := (leftLists.mem_iff next).mpr
      (Reaches.next reaches ⟨node, found, isTarget⟩)
    have otherMember := (rightLists.mem_iff otherNext).mpr
      (Reaches.next otherReaches ⟨other, isOther, isOtherTarget⟩)
    have samePlaces := (samePlace next nextMember).trans sameLine
    exact ((List.idxOf_inj otherMember).mp samePlaces.symm).symm

/-! ## Equal listings -/

/-- Two automata, of one store or of two, have the same listing exactly if they
are the same but for the numbers of their nodes. The listing has a line for
each node that is reached, and with it goes the language. -/
theorem Legible.canonical (leftLegible : left.Legible leftStart)
    (rightLegible : right.Legible rightStart) :
    ∃ leftText rightText,
      left.Shows leftStart leftText ∧
      right.Shows rightStart rightText ∧
      (leftText = rightText ↔
        ∃ rename, Renames left right leftStart rightStart rename) ∧
      (leftText = rightText → ∃ language,
        left.Accepts leftStart language ∧
        right.Accepts rightStart language) := by
  obtain ⟨leftOrder, leftText, leftLists⟩ := leftLegible.intact.exists_lists
  obtain ⟨rightOrder, rightText, rightLists⟩ :=
    rightLegible.intact.exists_lists
  have backward : leftText = rightText →
      ∃ rename, Renames left right leftStart rightStart rename := by
    intro sameText
    apply exists_renames_of_entries_eq leftLegible rightLegible leftLists
      rightLists
    apply Entry.pageChars_inj
    · intro entry member
      obtain ⟨id, listed, same⟩ := List.mem_map.mp member
      rw [← same]
      exact leftLegible.plain leftOrder ((leftLists.mem_iff id).mp listed)
    · intro entry member
      obtain ⟨id, listed, same⟩ := List.mem_map.mp member
      rw [← same]
      exact rightLegible.plain rightOrder ((rightLists.mem_iff id).mp listed)
    · rw [← leftLists.chars, sameText, rightLists.chars]
  refine ⟨leftText, rightText, leftLists.shows leftLegible,
    rightLists.shows rightLegible, ⟨backward, ?_⟩, ?_⟩
  · intro renamed
    obtain ⟨rename, renames⟩ := renamed
    obtain ⟨text, isLeft, isRight⟩ :=
      renames.exists_listing leftLegible.intact
    rw [leftLists.listing] at isLeft
    rw [rightLists.listing] at isRight
    cases isLeft
    cases isRight
    rfl
  · intro sameText
    obtain ⟨rename, renames⟩ := backward sameText
    exact renames.exists_language leftLegible.intact rightLegible.intact

/-- Where no freed slot waits, a look at each node is enough. -/
theorem Reached.legible_of_slots (reached : store.Reached)
    (noneFree : store.pool = []) (within : start < store.slots.size)
    (checked : ∀ slot ∈ store.slots.toList,
      (slot.node.isAny = true ∨ slot.node.isEmpty = true →
        slot.node.transitions = ∅) ∧
      ∀ atom ∈ slot.node.transitions.atoms, ListableName atom.name) :
    store.Legible start := by
  have checkedNode : ∀ id node, store.node id = .ok node →
      (node.isAny = true ∨ node.isEmpty = true → node.transitions = ∅) ∧
      ∀ atom ∈ node.transitions.atoms, ListableName atom.name := by
    intro id node found
    obtain ⟨slot, present, _, same⟩ := (node_eq_ok_iff store id node).mp found
    rw [← same]
    exact checked slot <|
      Array.mem_toList_iff.mpr (Array.mem_of_getElem? present)
  exact reached.legible (reached.intact noneFree within)
    (fun id node _ found => (checkedNode id node found).1)
    fun id node _ found => (checkedNode id node found).2

/-- A start that leads to itself and to both shared nodes. -/
def sharedLast : Store where
  slots :=
    #[⟨1, true,
        { accepting := true
          transitions :=
            ((AtomMap.insert ∅ (.ofElement "a") 1).insert
              (.ofElement "b") 2).insert (.ofElement "c") 0 }⟩,
      ⟨2, true, freshAny⟩,
      ⟨3, true, freshEmpty⟩]
  sharedAny := some 1
  sharedEmpty := some 2
  issued := 3

theorem reached_sharedLast : sharedLast.Reached := by
  have made : Reached _ := .emptyNode (.anyNode (.alloc .new))
  have accepted : Reached _ := .setAccepting made
    (show Store.setAccepting _ 0 true = .ok _ from rfl)
  have toAny : Reached _ := .setTransition accepted
    (show Store.setTransition _ 0 (.ofElement "a") 1 = .ok (none, _) from rfl)
  have toEmpty : Reached _ := .setTransition toAny
    (show Store.setTransition _ 0 (.ofElement "b") 2 = .ok (none, _) from rfl)
  exact .setTransition toEmpty
    (show Store.setTransition _ 0 (.ofElement "c") 0 =
      .ok (none, sharedLast) from rfl)

/-- The same automaton, built in another order beside a further node. -/
def sharedFirst : Store where
  slots :=
    #[⟨1, true, freshEmpty⟩,
      ⟨2, true, {}⟩,
      ⟨3, true,
        { accepting := true
          transitions :=
            ((AtomMap.insert ∅ (.ofElement "c") 2).insert
              (.ofElement "b") 0).insert (.ofElement "a") 3 }⟩,
      ⟨4, true, freshAny⟩]
  sharedAny := some 3
  sharedEmpty := some 0
  issued := 4

theorem reached_sharedFirst : sharedFirst.Reached := by
  have made : Reached _ := .anyNode (.alloc (.alloc (.emptyNode .new)))
  have accepted : Reached _ := .setAccepting made
    (show Store.setAccepting _ 2 true = .ok _ from rfl)
  have toSelf : Reached _ := .setTransition accepted
    (show Store.setTransition _ 2 (.ofElement "c") 2 = .ok (none, _) from rfl)
  have toEmpty : Reached _ := .setTransition toSelf
    (show Store.setTransition _ 2 (.ofElement "b") 0 = .ok (none, _) from rfl)
  exact .setTransition toEmpty
    (show Store.setTransition _ 2 (.ofElement "a") 3 =
      .ok (none, sharedFirst) from rfl)

theorem Legible.canonical_sharedFirst :
    sharedLast.Reached ∧ sharedFirst.Reached ∧
    sharedLast.Legible 0 ∧ sharedFirst.Legible 2 ∧
    ∃ text,
      text = "D0 ✓: a → D1, b → D2, c → D0\nD1 ✓: * → D1\nD2 ✓: EMPTY\n" ∧
      sharedLast.Shows 0 text ∧ sharedFirst.Shows 2 text ∧
      (∃ rename, Renames sharedLast sharedFirst 0 2 rename) ∧
      ∃ language, sharedLast.Accepts 0 language ∧
        sharedFirst.Accepts 2 language := by
  have lastLegible : sharedLast.Legible 0 :=
    reached_sharedLast.legible_of_slots rfl (by decide) (by decide)
  have firstLegible : sharedFirst.Legible 2 :=
    reached_sharedFirst.legible_of_slots rfl (by decide) (by decide)
  obtain ⟨lastText, firstText, lastShows, firstShows, sameIff, sameLanguage⟩ :=
    lastLegible.canonical firstLegible
  have isLast : sharedLast.listing 0 =
      .ok "D0 ✓: a → D1, b → D2, c → D0\nD1 ✓: * → D1\nD2 ✓: EMPTY\n" := rfl
  have isFirst : sharedFirst.listing 2 =
      .ok "D0 ✓: a → D1, b → D2, c → D0\nD1 ✓: * → D1\nD2 ✓: EMPTY\n" := rfl
  rw [firstShows.listing] at isFirst
  rw [lastShows.listing] at isLast
  cases isLast
  cases isFirst
  exact ⟨reached_sharedLast, reached_sharedFirst, lastLegible, firstLegible, _,
    rfl, lastShows, firstShows, sameIff.mp rfl, sameLanguage rfl⟩

end Store

end ContentModel.Automaton
