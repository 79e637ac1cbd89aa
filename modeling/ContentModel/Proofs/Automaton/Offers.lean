import ContentModel.Proofs.Automaton.Confined
import ContentModel.Proofs.Automaton.States
import ContentModel.Proofs.Model.Names

/-!
# The names that an automaton offers

A name is in the table of a node only if some word that the model allows goes
on with it. Main statements: `exists_word_of_advance`, which holds of graphs of
any size, because a number that stands for two points is not read, and
`compileModel_offers`, the nodes of a model offer no names but its own.
-/

namespace ContentModel

open Automaton

namespace FragmentGraph

variable {graph : FragmentGraph} {fragment : Fragment} {region : Set Nat}
  {starts set : List Nat}

/-- Some word leads from the entry of the fragment to the point, and whatever
is read from there on completes it. -/
def Approached (graph : FragmentGraph) (fragment : Fragment) (id : Nat) :
    Prop :=
  ∃ word, ∀ rest, graph.Passes fragment.exit id rest →
    word ++ rest ∈ graph.language fragment

theorem approached_entry (graph : FragmentGraph) (fragment : Fragment) :
    graph.Approached fragment fragment.entry :=
  ⟨[], fun _ passes => passes⟩

theorem Approached.next {id next : Nat}
    (approached : graph.Approached fragment id) (notExit : id ≠ fragment.exit)
    (isNext : next ∈ graph.successors id) :
    graph.Approached fragment next := by
  obtain ⟨word, completes⟩ := approached
  refine ⟨word ++ graph.reading id, ?_⟩
  intro rest passes
  rw [List.append_assoc]
  exact completes _ (Passes.step notExit isNext passes)

/-- Every point of the list that is not the mark is approached. -/
def AllApproached (graph : FragmentGraph) (fragment : Fragment)
    (points : List Nat) : Prop :=
  ∀ id ∈ points, id ≠ pastExit → graph.Approached fragment id

/-- What is read at a point is in every word that is read from there on. -/
theorem mem_of_passes_of_atomAt {exit id : Nat} {atom : Atom}
    {word : List String} (passes : graph.Passes exit id word)
    (reads : graph.atomAt id = some atom) : atom.name ∈ word := by
  have isFirst : atom.name ∈ graph.reading id := by
    rw [reading_of_atomAt reads]
    exact List.mem_singleton_self atom.name
  cases passes with
  | leave _ =>
      exact isFirst
  | step _ _ _ =>
      exact List.mem_append_left _ isFirst

section Region

variable (whole : Region True graph fragment region)

include whole

theorem Drifts.approached (inside : ∀ id ∈ starts, id ∈ insert pastExit region)
    (startsApproached : graph.AllApproached fragment starts) {id : Nat}
    (drifts : graph.Drifts fragment.exit starts id) (isPoint : id ≠ pastExit) :
    graph.Approached fragment id := by
  have both : id ∈ insert pastExit region ∧
      (id ≠ pastExit → graph.Approached fragment id) := by
    apply Search.Reachable.invariant
      (motive := fun id => id ∈ insert pastExit region ∧
        (id ≠ pastExit → graph.Approached fragment id)) drifts
    · intro start member
      exact ⟨inside start member, startsApproached start member⟩
    · intro key found holds answer next isNext
      have nextDrifts : graph.Drifts fragment.exit [key] next :=
        (Search.reachable_start (List.mem_singleton_self key)).next answer
          isNext
      have keyInside := List.forall_mem_singleton.mpr holds.1
      refine ⟨nextDrifts.mem whole.stays keyInside, fun _ => ?_⟩
      rw [silentSteps_eq whole.stays holds.1] at answer
      cases answer
      split at isNext
      · exact absurd isNext List.not_mem_nil
      · rename_i goesOn
        rw [not_or, not_or] at goesOn
        exact (holds.2 goesOn.1).next goesOn.2.1 isNext
  exact both.2 isPoint

theorem allApproached_closureOf
    (inside : ∀ id ∈ starts, id ∈ insert pastExit region)
    (startsApproached : graph.AllApproached fragment starts) :
    graph.AllApproached fragment (graph.closureOf fragment.exit starts) := by
  intro id member isPoint
  cases (mem_closureOf_iff whole.stays inside id).mp member with
  | inl isRead =>
      exact Drifts.approached whole inside startsApproached isRead.2.2 isPoint
  | inr isMark =>
      exact absurd isMark.1 isPoint

/-- The points of every set that is met are approached. -/
theorem allApproached_of_met
    (met : Met (graph.setSpec fragment.exit)
      (graph.closureOf fragment.exit [fragment.entry]) set) :
    graph.Attentive (insert pastExit region) set ∧
      graph.AllApproached fragment set := by
  have inside : ∀ id ∈ [fragment.entry], id ∈ insert pastExit region :=
    List.forall_mem_singleton.mpr
      (Set.mem_insert_of_mem pastExit whole.entry_mem)
  have entryApproached : graph.AllApproached fragment [fragment.entry] :=
    List.forall_mem_singleton.mpr fun _ => approached_entry graph fragment
  refine met_set whole.stays inside met
    (allApproached_closureOf whole inside entryApproached) ?_
  intro set table name next attentive approached gathers found
  have nextInside := gathers.starts_mem whole.stays attentive found
  apply allApproached_closureOf whole nextInside
  intro id member isPoint
  obtain ⟨source, isSource, reads, isFollowing⟩ :=
    gathers.exists_of_find? found member
  rw [following] at isFollowing
  split at isFollowing
  · exact absurd (List.mem_singleton.mp isFollowing) isPoint
  · rename_i notExit
    exact (approached source isSource reads.1).next notExit isFollowing

/-- A name that leads on from a set that is met is a name of some word of the
fragment. -/
theorem exists_word_of_setSpec
    (met : Met (graph.setSpec fragment.exit)
      (graph.closureOf fragment.exit [fragment.entry]) set)
    {name : String} {next : List Nat}
    (leads : (graph.setSpec fragment.exit set).advance set name =
      some next) :
    ∃ word ∈ graph.language fragment, name ∈ word := by
  obtain ⟨attentive, approached⟩ := allApproached_of_met whole met
  obtain ⟨table, isTable, gathers⟩ := setSpec_eq whole.stays attentive
  rw [isTable, SubsetStep.advance, lastKey_entries, AtomMap.find?_map] at leads
  obtain ⟨found, isFound, _⟩ := Option.map_eq_some_iff.mp leads
  cases (gathers.listed_iff name).mp ⟨found, isFound⟩ with
  | inl impossible =>
      obtain ⟨_, impossible⟩ := impossible
      cases impossible
  | inr isRead =>
      obtain ⟨id, member, isPoint, atom, reads, isName⟩ := isRead
      obtain ⟨word, completes⟩ := approached id member isPoint
      obtain ⟨rest, passes⟩ :=
        whole.finishes id ((attentive.mem id member).1.resolve_left isPoint)
          (Or.inl trivial)
      refine ⟨word ++ rest, completes rest passes, ?_⟩
      apply List.mem_append_right
      rw [← isName]
      exact mem_of_passes_of_atomAt passes reads

end Region

end FragmentGraph

/-! ## Names in tables -/

/-- The names in the table of the node are among these. -/
def Automaton.Node.OffersWithin (node : Node) (names : Set String) : Prop :=
  ∀ name next, node.transitions.find? name = some next → name ∈ names

namespace Automaton

theorem Node.OffersWithin.mono {node : Node} {names more : Set String}
    (offers : node.OffersWithin names) (fewer : names ⊆ more) :
    node.OffersWithin more :=
  fun name next found => fewer (offers name next found)

namespace Store

variable {base after : Store} {created : List Nat} {names : Set String}
  {model : Model}

/-- A name that leads on from a state is a name of some word that the model
allows. -/
theorem exists_word_of_advance (ordered : model.BoundsOrdered)
    {set next : List Nat} (member : set ∈ model.states) {name : String}
    (leads : (model.stateStep set).advance set name = some next) :
    ∃ word ∈ model.language, name ∈ word := by
  obtain ⟨fragment, graph, region, isLowered, whole, sameLanguage, _⟩ :=
    lowered_region ordered
  have met : Met model.stateStep model.firstState set := member
  rw [Model.stateStep_eq isLowered, Model.firstState_eq isLowered] at met
  rw [Model.stateStep_eq isLowered] at leads
  rw [← sameLanguage]
  exact FragmentGraph.exists_word_of_setSpec whole met leads

/-- The nodes of a model offer the names of words that it allows. -/
theorem offersWithin_of_built (ordered : model.BoundsOrdered)
    (within : NamesWithin names model.language) {states : List (List Nat)}
    {nodeOf : List Nat → Nat}
    (built : Built base model.stateStep model.firstState states nodeOf after)
    {set : List Nat} (isState : set ∈ states) :
    ∃ node, after.node (nodeOf set) = .ok node ∧ node.OffersWithin names := by
  obtain ⟨met, accepting, edges, isStep⟩ :=
    (built.mem_keys_iff set).mp isState
  obtain ⟨node, found, _, _, table⟩ :=
    built.expand set accepting edges met isStep
  refine ⟨node, found, ?_⟩
  intro name next leads
  rw [table] at leads
  obtain ⟨nextSet, last, _⟩ := Option.map_eq_some_iff.mp leads
  have advances : (model.stateStep set).advance set name = some nextSet := by
    rw [isStep]
    exact last
  obtain ⟨word, isWord, inWord⟩ := exists_word_of_advance ordered met advances
  exact within word isWord name inWord

/-- Nodes that were there are as they were, and the shared nodes have no
step. -/
theorem Grown.offers (sound : base.Sound) (standard : base.Standard)
    (grown : base.Grown created after)
    (each : ∀ id ∈ created, ∀ node, after.node id = .ok node →
      node.OffersWithin names)
    {id : Nat} {node : Node} (found : after.node id = .ok node) :
    base.node id = .ok node ∨ node.OffersWithin names := by
  rcases grown.live id ⟨node, found⟩ with wasLive | isCreated | isShared
  · obtain ⟨old, wasFound⟩ := wasLive
    have stays := grown.keeps id old wasFound
    rw [found] at stays
    cases stays
    exact Or.inl wasFound
  · exact Or.inr (each id isCreated node found)
  · have afterStandard := grown.standard sound standard
    refine Or.inr ?_
    cases (isShared_iff after id).mp isShared with
    | inl isAny =>
        rw [afterStandard.any id isAny] at found
        cases found
        intro name next impossible
        cases impossible
    | inr isEmpty =>
        rw [afterStandard.empty id isEmpty] at found
        cases found
        intro name next impossible
        cases impossible

/-- The nodes of a model offer no names but its own. -/
theorem compileModel_offers (sound : base.Sound) (standard : base.Standard)
    (ordered : model.BoundsOrdered)
    (inLeaves : model.atomsInLeaves = true)
    {result : Except StateLimitExceeded Nat}
    (isResult : base.compileModel model = .ok (result, after)) {id : Nat}
    {node : Node} (found : after.node id = .ok node) :
    base.node id = .ok node ∨ node.OffersWithin model.names := by
  cases compileModel_states sound ordered with
  | inl succeeds =>
      obtain ⟨states, nodeOf, store, isCompiled, _, built⟩ := succeeds
      rw [isResult] at isCompiled
      cases isCompiled
      refine built.grown.offers sound standard ?_ found
      intro own isCreated ownNode ownFound
      obtain ⟨set, isState, same⟩ := List.mem_map.mp isCreated
      obtain ⟨other, isOther, offers⟩ := offersWithin_of_built ordered
        (Model.namesWithin_language inLeaves) built isState
      rw [same, ownFound] at isOther
      cases isOther
      exact offers
  | inr givesUp =>
      obtain ⟨store, isCompiled, _, grown⟩ := givesUp
      rw [isResult] at isCompiled
      cases isCompiled
      exact grown.offers sound standard
        (fun _ impossible => absurd impossible List.not_mem_nil) found

end Store

end Automaton

end ContentModel
