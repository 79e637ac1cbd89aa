import ContentModel.Proofs.Automaton.Reached
import ContentModel.Proofs.Automaton.Walk

/-!
# Unions of automata

The keys of a union are sets of nodes that were there before. The nodes that a
union adds take part in no set, so what a set turns into stays the same while
nodes are added.

Main statement: the union of two nodes accepts what either of them accepts, and
leaves both as they are (`merge_accepts`).
-/

namespace ContentModel.Automaton

namespace UnionTally

/-! ## Targets of a tally -/

/-- A target was met under a name. -/
def Leads (targets : AtomMap (List Nat)) (name : String) (next : Nat) :
    Prop :=
  ∃ found, targets.find? name = some found ∧ next ∈ found

/-- A name is entered only together with a target. -/
def NoneBlank (targets : AtomMap (List Nat)) : Prop :=
  ∀ name found, targets.find? name = some found → found ≠ []

theorem leads_addTarget_iff (targets : AtomMap (List Nat))
    (edge : Atom × Nat) (name : String) (next : Nat) :
    Leads (addTarget targets edge) name next ↔
      Leads targets name next ∨ (edge.1.name = name ∧ edge.2 = next) := by
  rw [Leads, Leads, addTarget, AtomMap.find?_alter]
  by_cases same : name = edge.1.name
  · cases targets.find? name with
    | none => simp [same, eq_comm]
    | some found => simp [same, eq_comm, or_comm]
  · simp [same, Ne.symm same]

theorem noneBlank_addTarget {targets : AtomMap (List Nat)}
    (noneBlank : NoneBlank targets) (edge : Atom × Nat) :
    NoneBlank (addTarget targets edge) := by
  intro name found isFound
  rw [addTarget, AtomMap.find?_alter] at isFound
  split at isFound
  · cases isFound
    exact List.cons_ne_nil _ _
  · exact noneBlank name found isFound

theorem leads_foldl_iff (edges : List (Atom × Nat))
    (targets : AtomMap (List Nat)) (name : String) (next : Nat) :
    Leads (edges.foldl addTarget targets) name next ↔
      Leads targets name next ∨
        ∃ atom, (atom, next) ∈ edges ∧ atom.name = name := by
  induction edges generalizing targets with
  | nil =>
      simp
  | cons edge edges inductionHypothesis =>
      obtain ⟨atom, target⟩ := edge
      rw [List.foldl_cons, inductionHypothesis, leads_addTarget_iff, or_assoc]
      apply or_congr_right
      constructor
      · rintro (⟨isName, rfl⟩ | ⟨other, member, isName⟩)
        · exact ⟨atom, List.mem_cons_self, isName⟩
        · exact ⟨other, List.mem_cons_of_mem _ member, isName⟩
      · rintro ⟨other, member, isName⟩
        rcases List.mem_cons.mp member with same | later
        · cases same
          exact Or.inl ⟨isName, rfl⟩
        · exact Or.inr ⟨other, later, isName⟩

theorem noneBlank_foldl (edges : List (Atom × Nat))
    {targets : AtomMap (List Nat)} (noneBlank : NoneBlank targets) :
    NoneBlank (edges.foldl addTarget targets) := by
  induction edges generalizing targets with
  | nil =>
      exact noneBlank
  | cons edge edges inductionHypothesis =>
      exact inductionHypothesis (noneBlank_addTarget noneBlank edge)

theorem leads_add_iff (tally : UnionTally) (node : Node) (name : String)
    (next : Nat) :
    Leads (tally.add node).targets name next ↔
      Leads tally.targets name next ∨
        node.transitions.find? name = some next := by
  rw [AtomMap.find?_eq_some_iff]
  exact leads_foldl_iff node.transitions.entries tally.targets name next

end UnionTally

namespace Store

open UnionTally (Leads NoneBlank)

variable {base store after : Store} {set : List Nat} {left right root : Nat}

/-! ## What a set turns into -/

/-- A tally after the members of a set were added. -/
structure Tallies (store : Store) (set : List Nat)
    (before after : UnionTally) : Prop where
  accepting_iff : after.accepting = true ↔ before.accepting = true ∨
    ∃ id ∈ set, ∃ node, store.node id = .ok node ∧ node.accepting = true
  allEmpty_iff : after.allEmpty = true ↔ before.allEmpty = true ∧
    ∀ id ∈ set, ∃ node, store.node id = .ok node ∧ node.isEmpty = true
  leads_iff : ∀ name next,
    Leads after.targets name next ↔ Leads before.targets name next ∨
      ∃ id ∈ set, ∃ node, store.node id = .ok node ∧
        node.transitions.find? name = some next
  noneBlank : NoneBlank before.targets → NoneBlank after.targets

private theorem Tallies.cons {id : Nat} {node : Node}
    {before after : UnionTally} (found : store.node id = .ok node)
    (tallies : Tallies store set (before.add node) after) :
    Tallies store (id :: set) before after where
  accepting_iff := by
    rw [tallies.accepting_iff]
    simp [UnionTally.add, found, or_assoc]
  allEmpty_iff := by
    rw [tallies.allEmpty_iff]
    simp [UnionTally.add, found, and_assoc]
  leads_iff name next := by
    rw [tallies.leads_iff, UnionTally.leads_add_iff]
    simp [found, or_assoc]
  noneBlank noneBlank :=
    tallies.noneBlank (UnionTally.noneBlank_foldl _ noneBlank)

/-- A set with a node that accepts everything is settled by it; the members of
any other set are all added up. -/
theorem unionStep_spec (live : ∀ id ∈ set, store.Live id)
    (tally : UnionTally) :
    (store.unionStep tally set = .ok .any ∧
      ∃ id ∈ set, ∃ node, store.node id = .ok node ∧ node.role = .any) ∨
    ((∀ id ∈ set, ∀ node, store.node id = .ok node → node.role ≠ .any) ∧
      ∃ after, store.unionStep tally set = .ok after.step ∧
        Tallies store set tally after) := by
  induction set generalizing tally with
  | nil =>
      refine Or.inr ⟨fun id member => absurd member List.not_mem_nil, tally,
        rfl, ?_⟩
      constructor
      · simp
      · simp
      · simp
      · exact id
  | cons first rest inductionHypothesis =>
      obtain ⟨node, found⟩ := live first List.mem_cons_self
      by_cases isAny : node.role = .any
      · refine Or.inl ⟨?_, first, List.mem_cons_self, node, found, isAny⟩
        simp [unionStep, found, Node.role_eq_any_iff.mp isAny]
      · have goesOn : store.unionStep tally (first :: rest) =
            store.unionStep (tally.add node) rest := by
          rw [Node.role_eq_any_iff] at isAny
          simp [unionStep, found, isAny]
        rw [goesOn]
        rcases inductionHypothesis
            (fun id member => live id (List.mem_cons_of_mem first member))
            (tally.add node) with
          ⟨isStep, id, member, other, otherFound, otherAny⟩ |
            ⟨noneAny, after, isStep, tallies⟩
        · exact Or.inl ⟨isStep, id, List.mem_cons_of_mem first member, other,
            otherFound, otherAny⟩
        · refine Or.inr ⟨?_, after, isStep, tallies.cons found⟩
          intro id member other otherFound
          rcases List.mem_cons.mp member with same | later
          · rw [same, found] at otherFound
            cases otherFound
            exact isAny
          · exact noneAny id later other otherFound

/-- What a set turns into depends on its members alone. -/
theorem unionStep_congr (same : ∀ id ∈ set, after.node id = store.node id)
    (tally : UnionTally) :
    after.unionStep tally set = store.unionStep tally set := by
  induction set generalizing tally with
  | nil =>
      rfl
  | cons first rest inductionHypothesis =>
      have restSame := fun tally => inductionHypothesis
        (fun id member => same id (List.mem_cons_of_mem first member)) tally
      rw [unionStep, unionStep, same first List.mem_cons_self]
      simp only [restSame]

/-- What the set of the given nodes is. -/
def unionSpec (store : Store) (set : List Nat) : SubsetStep (List Nat) :=
  (store.unionStep {} set).toOption.getD .empty

/-- While nodes are added, a set turns into what it turned into before. -/
theorem unionStep_of_keeps (keeps : Keeps base store)
    (live : ∀ id ∈ set, base.Live id) :
    store.unionStep {} set = .ok (base.unionSpec set) := by
  have same : ∀ id ∈ set, store.node id = base.node id := by
    intro id member
    obtain ⟨node, found⟩ := live id member
    rw [found]
    exact keeps id node found
  rw [unionStep_congr same, unionSpec]
  rcases unionStep_spec live {} with
    ⟨isStep, _⟩ | ⟨_, tally, isStep, _⟩
  · rw [isStep]
    rfl
  · rw [isStep]
    rfl

/-! ## Sets of safe nodes -/

/-- The shared nodes are like those that are first made, as far as a union
depends on it. -/
structure Regular (store : Store) : Prop where
  any : ∀ id node, store.sharedAny = some id → store.node id = .ok node →
    node.accepting = true
  empty : ∀ id node, store.sharedEmpty = some id →
    store.node id = .ok node → node.transitions = ∅

/-- At least one node, and none from which a walk fails. -/
structure Joins (store : Store) (set : List Nat) : Prop where
  nonempty : set ≠ []
  safe : ∀ id ∈ set, store.reader.Safe id

theorem Joins.live (joins : store.Joins set) :
    ∀ id ∈ set, store.Live id :=
  fun id member => (joins.safe id member).read

/-- The words that are accepted from some node of a set. -/
def unionLanguage (store : Store) (set : List Nat) : Language String :=
  { word | ∃ id ∈ set, word ∈ store.reader.language id }

/-- A table tells where names lead, but for the node that accepts
everything. -/
theorem advance_eq_find? (sound : store.Sound) (regular : store.Regular)
    {id : Nat} {node : Node} (found : store.node id = .ok node)
    (notAny : node.role ≠ .any) (name : String) :
    node.advance id name = node.transitions.find? name := by
  rw [Node.advance_eq]
  cases isRole : node.role with
  | ordinary =>
      rfl
  | any =>
      exact absurd isRole notAny
  | empty =>
      have shared := (sound.empty_iff id node found).mp isRole
      rw [regular.empty id node shared found]
      rfl

/-- Every word is accepted from the node that accepts everything. -/
theorem mem_language_of_any (sound : store.Sound) (regular : store.Regular)
    {id : Nat} {node : Node} (found : store.node id = .ok node)
    (isAny : node.role = .any) (word : List String) :
    word ∈ store.reader.language id := by
  have isRead : store.reader.read id = .ok node := found
  have shared := (sound.any_iff id node found).mp isAny
  induction word with
  | nil =>
      rw [Reader.nil_mem_language_iff isRead]
      exact regular.any id node shared found
  | cons name word inductionHypothesis =>
      rw [Reader.cons_mem_language_iff isRead]
      refine ⟨id, ?_, inductionHypothesis⟩
      rw [Node.advance_eq, isAny]

/-- Where a tally leads, each target once and in ascending order. -/
def successorSets (tally : UnionTally) : AtomMap (List Nat) :=
  tally.targets.map fun found => (Std.TreeSet.ofList found).toList

theorem mem_successorSets_iff {tally : UnionTally} {name : String}
    {next : List Nat} (isNext : (successorSets tally).find? name = some next)
    (id : Nat) : id ∈ next ↔ Leads tally.targets name id := by
  rw [successorSets, AtomMap.find?_map] at isNext
  obtain ⟨found, isFound, rfl⟩ := Option.map_eq_some_iff.mp isNext
  rw [Leads, isFound]
  simp [Std.TreeSet.mem_toList, Std.TreeSet.mem_ofList]

theorem exists_successorSet_iff (tally : UnionTally) (name : String) :
    (∃ next, (successorSets tally).find? name = some next) ↔
      ∃ found, tally.targets.find? name = some found := by
  rw [successorSets, AtomMap.find?_map]
  cases tally.targets.find? name with
  | none => simp
  | some found => simp

/-- What a set is, and what that says about its members. -/
theorem unionSpec_cases (joins : store.Joins set) :
    (store.unionSpec set = .any ∧
      ∃ id ∈ set, ∃ node, store.node id = .ok node ∧ node.role = .any) ∨
    (store.unionSpec set = .empty ∧
      ∀ id ∈ set, ∃ node, store.node id = .ok node ∧ node.role = .empty) ∨
    ∃ tally,
      store.unionSpec set =
        .expand tally.accepting (successorSets tally).entries ∧
      (∀ id ∈ set, ∀ node, store.node id = .ok node →
        node.role ≠ .any) ∧
      Tallies store set {} tally := by
  rw [unionSpec]
  rcases unionStep_spec joins.live {} with
    ⟨isStep, someAny⟩ | ⟨noneAny, tally, isStep, tallies⟩
  · rw [isStep]
    exact Or.inl ⟨rfl, someAny⟩
  · rw [isStep]
    cases isEmpty : tally.allEmpty with
    | true =>
        refine Or.inr (Or.inl ⟨?_, ?_⟩)
        · rw [UnionTally.step, isEmpty]
          rfl
        · intro id member
          obtain ⟨node, found, nodeEmpty⟩ :=
            (tallies.allEmpty_iff.mp isEmpty).2 id member
          have notAny := noneAny id member node found
          rw [ne_eq, Node.role_eq_any_iff, Bool.not_eq_true] at notAny
          exact ⟨node, found, Node.role_eq_empty_iff.mpr ⟨notAny, nodeEmpty⟩⟩
    | false =>
        refine Or.inr (Or.inr ⟨tally, ?_, noneAny, tallies⟩)
        rw [UnionTally.step, isEmpty]
        rfl

/-- The sets to which a tally leads consist of the nodes to which the members
lead. -/
theorem Tallies.leads_iff_advance (sound : store.Sound)
    (regular : store.Regular) {tally : UnionTally}
    (noneAny : ∀ id ∈ set, ∀ node, store.node id = .ok node →
      node.role ≠ .any)
    (tallies : Tallies store set {} tally) (name : String) (next : Nat) :
    Leads tally.targets name next ↔
      ∃ id ∈ set, ∃ node, store.node id = .ok node ∧
        node.advance id name = some next := by
  rw [tallies.leads_iff]
  have noneBefore : ¬ Leads (∅ : AtomMap (List Nat)) name next := by
    rintro ⟨found, impossible, _⟩
    cases impossible
  rw [or_iff_right noneBefore]
  apply exists_congr
  intro id
  apply and_congr_right
  intro member
  apply exists_congr
  intro node
  apply and_congr_right
  intro found
  rw [advance_eq_find? sound regular found (noneAny id member node found)]

theorem nil_mem_unionLanguage_iff (joins : store.Joins set) :
    [] ∈ store.unionLanguage set ↔
      ∃ id ∈ set, ∃ node, store.node id = .ok node ∧
        node.accepting = true := by
  have nil_iff : ∀ id node, store.node id = .ok node →
      ([] ∈ store.reader.language id ↔ node.accepting = true) :=
    fun _ _ found => Reader.nil_mem_language_iff found
  constructor
  · rintro ⟨id, member, accepts⟩
    obtain ⟨node, found⟩ := joins.live id member
    exact ⟨id, member, node, found, (nil_iff id node found).mp accepts⟩
  · rintro ⟨id, member, node, found, accepts⟩
    exact ⟨id, member, (nil_iff id node found).mpr accepts⟩

section Sets

variable (sound : store.Sound) (regular : store.Regular)

include sound regular

/-- A set leads to sets of the same kind. -/
theorem Joins.next (joins : store.Joins set) {accepting : Bool}
    {edges : List (Atom × List Nat)}
    (isStep : store.unionSpec set = .expand accepting edges)
    {edge : Atom × List Nat} (member : edge ∈ edges) :
    store.Joins edge.2 := by
  rcases unionSpec_cases joins with
    ⟨isAny, _⟩ | ⟨isEmpty, _⟩ | ⟨tally, isExpand, noneAny, tallies⟩
  · rw [isAny] at isStep
    cases isStep
  · rw [isEmpty] at isStep
    cases isStep
  · rw [isExpand] at isStep
    cases isStep
    have isNext : (successorSets tally).find? edge.1.name = some edge.2 :=
      (AtomMap.find?_eq_some_iff ..).mpr ⟨edge.1, member, rfl⟩
    have noneBlank := tallies.noneBlank (by
      intro name found impossible
      cases impossible)
    constructor
    · obtain ⟨found, isFound⟩ :=
        (exists_successorSet_iff tally edge.1.name).mp ⟨_, isNext⟩
      obtain ⟨id, isMember⟩ :=
        List.exists_mem_of_ne_nil found (noneBlank _ found isFound)
      exact List.ne_nil_of_mem
        ((mem_successorSets_iff isNext id).mpr ⟨found, isFound, isMember⟩)
    · intro next isMember
      have leads := (mem_successorSets_iff isNext next).mp isMember
      rw [tallies.leads_iff_advance sound regular noneAny] at leads
      obtain ⟨id, inSet, node, found, advance⟩ := leads
      exact Reader.Safe.advance (joins.safe id inSet) found advance

theorem Joins.of_met {start : List Nat} (joins : store.Joins start)
    (met : Met store.unionSpec start set) : store.Joins set :=
  met.invariant joins fun _ _ _ joins isStep _ member =>
    joins.next sound regular isStep member

/-- The words that are accepted from a set follow the steps of the sets. -/
theorem cons_mem_unionLanguage_iff (joins : store.Joins set) (name : String)
    (word : List String) :
    name :: word ∈ store.unionLanguage set ↔
      ∃ next, (store.unionSpec set).advance set name = some next ∧
        word ∈ store.unionLanguage next := by
  have member_iff : name :: word ∈ store.unionLanguage set ↔
      ∃ next, (∃ id ∈ set, ∃ node, store.node id = .ok node ∧
        node.advance id name = some next) ∧
        word ∈ store.reader.language next := by
    have cons_iff : ∀ id node, store.node id = .ok node →
        (name :: word ∈ store.reader.language id ↔
          ∃ next, node.advance id name = some next ∧
            word ∈ store.reader.language next) :=
      fun _ _ found => Reader.cons_mem_language_iff found name word
    constructor
    · rintro ⟨id, member, accepts⟩
      obtain ⟨node, found⟩ := joins.live id member
      obtain ⟨next, advance, rest⟩ := (cons_iff id node found).mp accepts
      exact ⟨next, ⟨id, member, node, found, advance⟩, rest⟩
    · rintro ⟨next, ⟨id, member, node, found, advance⟩, rest⟩
      exact ⟨id, member, (cons_iff id node found).mpr ⟨next, advance, rest⟩⟩
  rcases unionSpec_cases joins with
    ⟨isAny, id, member, node, found, nodeAny⟩ | ⟨isEmpty, allEmpty⟩ |
      ⟨tally, isExpand, noneAny, tallies⟩
  · have accepted : ∀ word, word ∈ store.unionLanguage set :=
      fun word => ⟨id, member,
        mem_language_of_any sound regular found nodeAny word⟩
    rw [isAny]
    exact iff_of_true (accepted _) ⟨set, rfl, accepted word⟩
  · rw [isEmpty, member_iff]
    apply iff_of_false
    · rintro ⟨next, ⟨id, member, node, found, advance⟩, _⟩
      obtain ⟨other, otherFound, nodeEmpty⟩ := allEmpty id member
      rw [found] at otherFound
      cases otherFound
      rw [Node.advance_eq, nodeEmpty] at advance
      cases advance
    · rintro ⟨next, impossible, _⟩
      cases impossible
  · rw [isExpand, member_iff]
    simp only [← tallies.leads_iff_advance sound regular noneAny,
      SubsetStep.advance, lastKey_entries]
    constructor
    · rintro ⟨next, leads, accepts⟩
      obtain ⟨found, isFound, _⟩ := id leads
      obtain ⟨nextSet, isNext⟩ :=
        (exists_successorSet_iff tally name).mpr ⟨found, isFound⟩
      exact ⟨nextSet, isNext, next,
        (mem_successorSets_iff isNext next).mpr leads, accepts⟩
    · rintro ⟨nextSet, isNext, next, member, accepts⟩
      exact ⟨next, (mem_successorSets_iff isNext next).mp member, accepts⟩

theorem solves_unionLanguage {start : List Nat} (joins : store.Joins start) :
    Solves store.unionSpec start store.unionLanguage :=
  fun _ met => cons_mem_unionLanguage_iff sound regular
    (joins.of_met sound regular met)

end Sets

/-! ## The nodes of the sets -/

section Unions

variable (sound : base.Sound) (regular : base.Regular) {start : List Nat}
  (joins : base.Joins start)

include sound regular joins

/-- A node of a set accepts where one of the members does. -/
theorem accepting_iff_nil_mem {keys : List (List Nat)}
    {nodeOf : List Nat → Nat}
    (built : Built base base.unionSpec start keys nodeOf after)
    (met : Met base.unionSpec start set) {node : Node}
    (found : after.node (nodeOf set) = .ok node) :
    node.accepting = true ↔ [] ∈ base.unionLanguage set := by
  have grown := built.grown
  have setJoins := joins.of_met sound regular met
  rcases unionSpec_cases setJoins with
    ⟨isAny, id, member, other, isNode, nodeAny⟩ | ⟨isEmpty, allEmpty⟩ |
      ⟨tally, isExpand, _, tallies⟩
  · have shared := (sound.any_iff id other isNode).mp nodeAny
    have stays := grown.keeps.sharedAny sound grown.sound shared
    rw [built.any set met isAny] at stays
    have same := Option.some.inj stays
    rw [same, grown.keeps id other isNode] at found
    cases found
    apply iff_of_true
    · exact regular.any id node shared isNode
    · exact ⟨id, member,
        mem_language_of_any sound regular isNode nodeAny []⟩
  · have atShared : ∀ id ∈ set, id = nodeOf set ∧
        base.node id = .ok node := by
      intro id member
      obtain ⟨other, isNode, nodeEmpty⟩ := allEmpty id member
      have shared := (sound.empty_iff id other isNode).mp nodeEmpty
      have stays := grown.keeps.sharedEmpty sound grown.sound shared
      rw [built.empty set met isEmpty] at stays
      have same := Option.some.inj stays
      rw [same, grown.keeps id other isNode] at found
      cases found
      exact ⟨same.symm, isNode⟩
    rw [nil_mem_unionLanguage_iff setJoins]
    constructor
    · intro accepts
      obtain ⟨id, member⟩ := List.exists_mem_of_ne_nil set setJoins.nonempty
      exact ⟨id, member, node, (atShared id member).2, accepts⟩
    · rintro ⟨id, member, other, isNode, accepts⟩
      rw [(atShared id member).2] at isNode
      cases isNode
      exact accepts
  · obtain ⟨other, isNode, isAccepting, _⟩ :=
      built.expand set _ _ met isExpand
    rw [found] at isNode
    cases isNode
    rw [isAccepting, tallies.accepting_iff,
      nil_mem_unionLanguage_iff setJoins]
    simp

/-- The walks from the node of the start accept what is accepted from some of
its members. -/
theorem walk_built {keys : List (List Nat)} {nodeOf : List Nat → Nat}
    (built : Built base base.unionSpec start keys nodeOf after)
    (word : List String) :
    ∃ walk, after.walk (nodeOf start) word = .ok walk ∧
      (walk.accepted = true ↔ word ∈ base.unionLanguage start) := by
  apply built.walk (solves_unionLanguage sound regular joins)
  · intro set met node found
    exact accepting_iff_nil_mem sound regular joins built met found
  · exact met_start base.unionSpec start

theorem unionStep_eq_unionSpec (keeps : Keeps base store)
    (met : Met base.unionSpec start set) :
    store.unionStep {} set = .ok (base.unionSpec set) :=
  unionStep_of_keeps keeps (joins.of_met sound regular met).live

end Unions

/-! ## Unions of two nodes -/

/-- The set of two nodes. -/
def pair (left right : Nat) : List Nat :=
  if left < right then [left, right] else [right, left]

theorem mem_pair_iff (left right id : Nat) :
    id ∈ pair left right ↔ id = left ∨ id = right := by
  rw [pair]
  split
  · simp
  · simp [or_comm]

theorem pair_comm (different : left ≠ right) :
    pair left right = pair right left := by
  rw [pair, pair]
  by_cases below : left < right
  · rw [if_pos below, if_neg (Nat.lt_asymm below)]
  · rw [if_neg below, if_pos (by omega)]

theorem joins_pair (leftSafe : store.reader.Safe left)
    (rightSafe : store.reader.Safe right) :
    store.Joins (pair left right) where
  nonempty := List.ne_nil_of_mem ((mem_pair_iff ..).mpr (Or.inl rfl))
  safe id member := by
    rcases (mem_pair_iff left right id).mp member with rfl | rfl
    · exact leftSafe
    · exact rightSafe

theorem mem_unionLanguage_pair_iff (store : Store) (left right : Nat)
    (word : List String) :
    word ∈ store.unionLanguage (pair left right) ↔
      word ∈ store.reader.language left ∨
        word ∈ store.reader.language right := by
  constructor
  · rintro ⟨id, member, accepts⟩
    rcases (mem_pair_iff left right id).mp member with rfl | rfl
    · exact Or.inl accepts
    · exact Or.inr accepts
  · rintro (accepts | accepts)
    · exact ⟨left, (mem_pair_iff ..).mpr (Or.inl rfl), accepts⟩
    · exact ⟨right, (mem_pair_iff ..).mpr (Or.inr rfl), accepts⟩

theorem merge_eq_determinize (store : Store) (different : left ≠ right) :
    store.merge left right =
      store.determinize (pair left right)
        fun store set => store.unionStep {} set := by
  rw [merge, if_neg different]
  rfl

/-- A store in which nodes were added is regular if it was before. -/
theorem Grown.regular {created : List Nat} (sound : base.Sound)
    (grown : base.Grown created after) (regular : base.Regular) :
    after.Regular where
  any id node shared found := by
    cases grown.sharedAny_cases sound shared with
    | inl isNew =>
        rw [isNew] at found
        cases found
        rfl
    | inr wasShared =>
        obtain ⟨old, isOld⟩ := sound.anyLive id wasShared
        rw [grown.keeps id old isOld] at found
        cases found
        exact regular.any id node wasShared isOld
  empty id node shared found := by
    cases grown.sharedEmpty_cases sound shared with
    | inl isNew =>
        rw [isNew] at found
        cases found
        rfl
    | inr wasShared =>
        obtain ⟨old, isOld⟩ := sound.emptyLive id wasShared
        rw [grown.keeps id old isOld] at found
        cases found
        exact regular.empty id node wasShared isOld

section Pairs

variable (sound : base.Sound) (regular : base.Regular)
  (leftSafe : base.reader.Safe left) (rightSafe : base.reader.Safe right)
  (different : left ≠ right)

include sound regular leftSafe rightSafe different

/-- A union of different nodes comes to an end: with the nodes of the sets that
are met, or with no node of its own. -/
theorem merge_outcome :
    (∃ keys nodeOf after,
      base.merge left right = .ok (.ok (nodeOf (pair left right)), after) ∧
      keys.length ≤ base.stateLimit ∧
      Built base base.unionSpec (pair left right) keys nodeOf after) ∨
    (∃ after, base.merge left right =
        .ok (.error ⟨base.stateLimit⟩, after) ∧
      Grown base [] after) := by
  have joins := joins_pair leftSafe rightSafe
  have follows : ∀ store, Keeps base store →
      ∀ set, Met base.unionSpec (pair left right) set →
        store.unionStep {} set = .ok (base.unionSpec set) :=
    fun _ keeps _ met =>
      unionStep_eq_unionSpec sound regular joins keeps met
  rw [merge_eq_determinize base different]
  rcases determinize_outcome sound follows with
    succeeds | ⟨_, after, isResult, _, _, _, grown⟩
  · exact Or.inl succeeds
  · exact Or.inr ⟨after, isResult, grown⟩

/-- A union that ends well has the nodes of the sets that are met. -/
theorem merge_built
    (result : base.merge left right = .ok (.ok root, after)) :
    ∃ keys nodeOf, root = nodeOf (pair left right) ∧
      keys.length ≤ base.stateLimit ∧
      Built base base.unionSpec (pair left right) keys nodeOf after := by
  rcases merge_outcome sound regular leftSafe rightSafe different with
    ⟨keys, nodeOf, store, isResult, few, built⟩ | ⟨_, isResult, _⟩
  · rw [result] at isResult
    cases isResult
    exact ⟨keys, nodeOf, rfl, few, built⟩
  · rw [result] at isResult
    cases isResult

/-- If a union needs no more nodes than a store allows, neither does the same
union when more nodes are in use. -/
theorem exists_merge_of_built {keys : List (List Nat)}
    {nodeOf : List Nat → Nat}
    (few : keys.length ≤ base.stateLimit)
    (built : Built base base.unionSpec (pair left right) keys nodeOf
      after) :
    ∃ other later, after.merge left right = .ok (.ok other, later) := by
  have joins := joins_pair leftSafe rightSafe
  have keeps := built.grown.keeps
  have afterJoins := joins_pair (keeps.safe leftSafe) (keeps.safe rightSafe)
  have agree : ∀ set, Met base.unionSpec (pair left right) set →
      after.unionSpec set = base.unionSpec set := by
    intro set met
    rw [unionSpec, unionStep_eq_unionSpec sound regular joins keeps met]
    rfl
  have follows : ∀ store, Keeps after store →
      ∀ set, Met after.unionSpec (pair left right) set →
        store.unionStep {} set = .ok (after.unionSpec set) :=
    fun _ keeps _ met => unionStep_eq_unionSpec built.grown.sound
      (built.grown.regular sound regular) afterJoins keeps met
  rw [merge_eq_determinize after different]
  rcases determinize_outcome built.grown.sound follows with
    ⟨_, _, later, isResult, _, _⟩ | ⟨more, _, _, many, nodup, each, _⟩
  · exact ⟨_, later, isResult⟩
  · have included : more ⊆ keys := by
      intro set member
      obtain ⟨met, isExpand⟩ := each set member
      have isMet := met.of_agree agree
      rw [agree set isMet] at isExpand
      exact (built.mem_keys_iff set).mpr ⟨isMet, isExpand⟩
    have bound := (List.subperm_of_subset nodup included).length_le
    rw [built.grown.stateLimit_eq] at many
    omega

end Pairs

/-- A union accepts what is accepted from either node. -/
private theorem merge_walk (sound : base.Sound) (regular : base.Regular)
    (leftSafe : base.reader.Safe left) (rightSafe : base.reader.Safe right)
    (result : base.merge left right = .ok (.ok root, after))
    (word : List String) :
    ∃ walk, after.walk root word = .ok walk ∧
      (walk.accepted = true ↔ word ∈ base.reader.language left ∨
        word ∈ base.reader.language right) := by
  by_cases same : left = right
  · subst same
    rw [merge, if_pos rfl] at result
    cases result
    obtain ⟨walk, isWalk⟩ := leftSafe word
    refine ⟨walk, isWalk, ?_⟩
    rw [or_self, Reader.mem_language_iff_of_walk isWalk]
  · obtain ⟨keys, nodeOf, isRoot, _, built⟩ :=
      merge_built sound regular leftSafe rightSafe same result
    rw [isRoot, ← mem_unionLanguage_pair_iff]
    exact walk_built sound regular (joins_pair leftSafe rightSafe) built word

private theorem merge_language (sound : base.Sound) (regular : base.Regular)
    (leftSafe : base.reader.Safe left) (rightSafe : base.reader.Safe right)
    (result : base.merge left right = .ok (.ok root, after)) :
    after.reader.language root =
      base.reader.language left + base.reader.language right := by
  ext word
  obtain ⟨walk, isWalk, accepts⟩ :=
    merge_walk sound regular leftSafe rightSafe result word
  rw [Reader.mem_language_iff_of_walk isWalk, accepts, Language.mem_add]

/-- The union of two nodes accepts what either of them accepts. The nodes that
were in use stay as they are, and so do the walks from the two. The order of
the two does not matter, neither in the same store nor after the first
union. -/
theorem merge_accepts (reached : base.Reached) (regular : base.Regular)
    (leftSafe : base.reader.Safe left) (rightSafe : base.reader.Safe right)
    (result : base.merge left right = .ok (.ok root, after)) :
    (∀ word, ∃ walk, after.walk root word = .ok walk ∧
      (walk.accepted = true ↔ word ∈ base.reader.language left ∨
        word ∈ base.reader.language right)) ∧
    (∀ id node, base.node id = .ok node → after.node id = .ok node) ∧
    (∀ word, after.walk left word = base.walk left word ∧
      after.walk right word = base.walk right word) ∧
    (∃ other later, base.merge right left = .ok (.ok other, later) ∧
      later.reader.language other = after.reader.language root) ∧
    ∃ other later, after.merge right left = .ok (.ok other, later) ∧
      later.reader.language other = after.reader.language root := by
  have sound := reached.sound
  obtain ⟨created, grown⟩ := grown_merge sound result
  have keeps := grown.keeps
  have language := merge_language sound regular leftSafe rightSafe result
  refine ⟨merge_walk sound regular leftSafe rightSafe result, keeps, ?_, ?_,
    ?_⟩
  · intro word
    exact ⟨keeps.walk_eq leftSafe word, keeps.walk_eq rightSafe word⟩
  · by_cases same : left = right
    · subst same
      exact ⟨root, after, result, rfl⟩
    · have turned : base.merge right left = .ok (.ok root, after) := by
        rw [merge_eq_determinize base (Ne.symm same), ← pair_comm same,
          ← merge_eq_determinize base same, result]
      exact ⟨root, after, turned, rfl⟩
  · have again : ∃ other later,
        after.merge right left = .ok (.ok other, later) := by
      by_cases same : left = right
      · exact ⟨right, after, by rw [merge, if_pos same.symm]⟩
      · obtain ⟨keys, nodeOf, _, few, built⟩ :=
          merge_built sound regular leftSafe rightSafe same result
        obtain ⟨other, later, isOther⟩ := exists_merge_of_built sound
          regular leftSafe rightSafe same few built
        refine ⟨other, later, ?_⟩
        rw [merge_eq_determinize after (Ne.symm same), ← pair_comm same,
          ← merge_eq_determinize after same, isOther]
    obtain ⟨other, later, isOther⟩ := again
    refine ⟨other, later, isOther, ?_⟩
    rw [merge_language grown.sound (grown.regular sound regular)
      (keeps.safe rightSafe) (keeps.safe leftSafe) isOther,
      keeps.language_eq leftSafe, keeps.language_eq rightSafe, language,
      add_comm]

/-- A node that loops on one name, and the node that accepts the empty word
alone. -/
def loopBesideEmpty : Store where
  slots :=
    #[⟨1, true, { transitions := AtomMap.insert ∅ (.ofElement "a") 0 }⟩,
      ⟨2, true, freshEmpty⟩]
  sharedEmpty := some 1
  issued := 2

theorem merge_accepts_loop_or_empty :
    ∃ root after, loopBesideEmpty.merge 0 1 = .ok (.ok root, after) ∧
      (∀ word, ∃ walk, after.walk root word = .ok walk ∧
        (walk.accepted = true ↔
          word ∈ loopBesideEmpty.reader.language 0 ∨
            word ∈ loopBesideEmpty.reader.language 1)) ∧
      ∃ other later, after.merge 1 0 = .ok (.ok other, later) ∧
        later.reader.language other = after.reader.language root := by
  have looped : (alloc {}).2.setTransition 0 (.ofElement "a") 0 =
      .ok (none, _) := rfl
  have reached : loopBesideEmpty.Reached :=
    (Reached.new.alloc.setTransition looped).emptyNode
  have regular : loopBesideEmpty.Regular := by
    constructor
    · intro id node shared
      cases shared
    · intro id node shared found
      cases shared
      cases found
      rfl
  have closed : loopBesideEmpty.reader.Closed {0} := by
    intro id isLoop
    cases isLoop
    refine ⟨_, rfl, ?_⟩
    intro name next leads
    change (AtomMap.insert ∅ (.ofElement "a") 0).find? name = some next
      at leads
    rw [AtomMap.find?_insert] at leads
    split at leads
    · cases leads
      rfl
    · cases leads
  have alone : loopBesideEmpty.reader.Closed {1} := by
    intro id isEmpty
    cases isEmpty
    refine ⟨_, rfl, ?_⟩
    intro name next leads
    cases leads
  obtain ⟨accepts, _, _, _, again⟩ := merge_accepts reached regular
    (closed.safe rfl) (alone.safe rfl) rfl
  exact ⟨_, _, rfl, accepts, again⟩

end Store

end ContentModel.Automaton
