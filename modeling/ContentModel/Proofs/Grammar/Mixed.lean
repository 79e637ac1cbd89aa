import ContentModel.Proofs.Automaton.Loops
import ContentModel.Proofs.Grammar.Content

/-!
# Mixed content

The elements of mixed content come in any number and order, so whatever was
read, the same may follow. Main statement: `compileModel_mixed`, the model of
mixed content is compiled to a single node that accepts and to which all the
names lead.
-/

namespace ContentModel

open FragmentGraph

namespace FragmentGraph

/-! ## The branches -/

/-- A fragment that reads one of the atoms: from its entry walks go to the
points of the atoms, which are the first ones, and from there to its exit. -/
structure Branches (graph : FragmentGraph) (inner : Fragment)
    (atoms : List Atom) : Prop where
  atomAt : ∀ id, graph.atomAt id = atoms[id]?
  present : inner.exit < graph.size
  enters : ∀ place, place < atoms.length → place = inner.entry ∨
    (graph.atomAt inner.entry = none ∧ inner.entry ≠ inner.exit ∧
      place ∈ graph.successors inner.entry)
  leaves : ∀ place, place < atoms.length →
    (place = inner.exit ∧ graph.successors place = []) ∨
    (place ≠ inner.exit ∧ graph.successors place = [inner.exit] ∧
      graph.atomAt inner.exit = none ∧ graph.successors inner.exit = [])

/-- The points of leaves stand one behind the other and lead nowhere yet. -/
theorem exists_leaves (atoms : List Atom) (graph : FragmentGraph) :
    ∃ after,
      Model.fragmentsOfBranches (atoms.map Model.leaf) graph =
        .ok ((List.range' graph.size atoms.length).map Fragment.single,
          after) ∧
      after.size = graph.size + atoms.length ∧
      (∀ id, after.atomAt id =
        if id < graph.size then graph.atomAt id
        else atoms[id - graph.size]?) ∧
      ∀ id, after.successors id = graph.successors id := by
  induction atoms generalizing graph with
  | nil =>
      refine ⟨graph, rfl, rfl, ?_, fun _ => rfl⟩
      intro id
      split
      · rfl
      · rename_i missing
        exact atomAt_of_size_le (Nat.le_of_not_lt missing)
  | cons atom atoms inductionHypothesis =>
      obtain ⟨after, isRest, sizeEq, atomAt, successors⟩ :=
        inductionHypothesis (graph.addMatcher atom).2
      have nextSize : (graph.addMatcher atom).2.size = graph.size + 1 :=
        size_addPoint graph _
      rw [nextSize] at isRest sizeEq atomAt
      refine ⟨after, ?_, ?_, ?_, ?_⟩
      · have isFirst : (Model.leaf atom).fragment graph =
            .ok (some (.single graph.size), (graph.addMatcher atom).2) := rfl
        rw [List.map_cons, Model.fragmentsOfBranches, isFirst]
        simp only [ok_bind, isRest]
        rfl
      · rw [sizeEq, List.length_cons]
        omega
      · intro id
        rw [atomAt, addMatcher, atomAt_addPoint]
        by_cases isFirst : id = graph.size
        · simp [isFirst]
        · by_cases below : id < graph.size
          · rw [if_pos (by omega), if_neg isFirst, if_pos below]
          · rw [if_neg (by omega), if_neg below,
              show id - graph.size = id - (graph.size + 1) + 1 by omega,
              List.getElem?_cons_succ]
      · intro id
        rw [successors, addMatcher, successors_addPoint]
        split
        · rename_i isNew
          exact (successors_of_size_le (Nat.le_of_eq isNew.symm)).symm
        · rfl

/-- The exits of single points are led on to a join. -/
theorem exists_joinAll_singles (join : Nat) (ids : List Nat)
    (graph : FragmentGraph) (present : ∀ id ∈ ids, id < graph.size)
    (nodup : ids.Nodup) :
    ∃ after, graph.joinAll join (ids.map Fragment.single) = .ok after ∧
      after.size = graph.size ∧
      (∀ id, after.atomAt id = graph.atomAt id) ∧
      ∀ id, after.successors id =
        if id ∈ ids then graph.successors id ++ [join]
        else graph.successors id := by
  induction ids generalizing graph with
  | nil =>
      exact ⟨graph, rfl, rfl, fun _ => rfl, fun _ => rfl⟩
  | cons first rest inductionHypothesis =>
      obtain ⟨firstNew, restNodup⟩ := List.nodup_cons.mp nodup
      have firstPresent := present first List.mem_cons_self
      obtain ⟨after, isRest, sizeEq, atomAt, successors⟩ :=
        inductionHypothesis (graph.lead first [join])
          (fun id member => by
            rw [size_lead]
            exact present id (List.mem_cons_of_mem first member))
          restNodup
      refine ⟨after, ?_, sizeEq.trans (size_lead ..), ?_, ?_⟩
      · rw [List.map_cons, joinAll, Fragment.single,
          connect_of_lt join firstPresent]
        exact isRest
      · intro id
        rw [atomAt, atomAt_lead]
      · intro id
        rw [successors, successors_lead [join] firstPresent]
        by_cases isFirst : id = first
        · rw [if_neg (isFirst ▸ firstNew), if_pos isFirst,
            if_pos (List.mem_cons.mpr (Or.inl isFirst))]
        · simp [isFirst]

private theorem atomAt_leaves {atoms : List Atom} {leaves : FragmentGraph}
    (atomAt : ∀ id, leaves.atomAt id =
      if id < 0 then ({} : FragmentGraph).atomAt id else atoms[id - 0]?)
    (id : Nat) : leaves.atomAt id = atoms[id]? :=
  (atomAt id).trans (if_neg (Nat.not_lt_zero id))

/-- A choice between the first points, which lead nowhere yet, gets a point in
front that leads to them and one behind that they lead to. -/
private theorem exists_alternation_of_singles (count : Nat)
    {leaves : FragmentGraph} (sizeEq : leaves.size = count + 2)
    (nowhere : ∀ id, leaves.successors id = []) :
    ∃ graph,
      leaves.alternation ((List.range' 0 (count + 2)).map Fragment.single) =
        .ok (⟨leaves.size, leaves.size + 1⟩, graph) ∧
      graph.size = leaves.size + 2 ∧
      (∀ id, graph.atomAt id = leaves.atomAt id) ∧
      ∀ id, graph.successors id =
        if id < leaves.size then [leaves.size + 1]
        else if id = leaves.size then List.range' 0 (count + 2)
        else [] := by
  have listed : ∀ id, id ∈ List.range' 0 (count + 2) ↔ id < leaves.size := by
    intro id
    rw [List.mem_range'_1, sizeEq]
    omega
  obtain ⟨graph, isJoined, joinedSize, joinedAtom, joinedSuccessors⟩ :=
    exists_joinAll_singles (leaves.size + 1) (List.range' 0 (count + 2))
      (leaves.forkTo (List.range' 0 (count + 2)))
      (fun id member => by
        rw [size_forkTo]
        exact Nat.lt_add_right 2 ((listed id).mp member))
      List.nodup_range'
  refine ⟨graph, ?_, joinedSize.trans (size_forkTo ..), ?_, ?_⟩
  · have targets : ((List.range' 0 (count + 2)).map Fragment.single).map
        Fragment.entry = List.range' 0 (count + 2) := by
      rw [List.map_map]
      exact List.map_id _
    have isFork : leaves.alternation
        ((List.range' 0 (count + 2)).map Fragment.single) = (do
          let after ← (leaves.forkTo
            (((List.range' 0 (count + 2)).map Fragment.single).map
              Fragment.entry)).joinAll (leaves.size + 1)
            ((List.range' 0 (count + 2)).map Fragment.single)
          return (⟨leaves.size, leaves.size + 1⟩, after)) :=
      alternation_eq (.single 0) (.single 1)
        ((List.range' 2 count).map Fragment.single)
    rw [targets, isJoined] at isFork
    exact isFork
  · intro id
    rw [joinedAtom, atomAt_forkTo]
  · intro id
    rw [joinedSuccessors, successors_forkTo, nowhere]
    by_cases below : id < leaves.size
    · rw [if_pos ((listed id).mpr below), if_neg (Nat.ne_of_lt below),
        if_pos below]
      rfl
    · rw [if_neg (below ∘ (listed id).mp), if_neg below]

private theorem exists_branches_of_two (first second : Atom)
    (rest : List Atom) :
    ∃ members leaves inner graph,
      Model.fragmentsOfBranches ((first :: second :: rest).map Model.leaf)
        {} = .ok (members, leaves) ∧
      members.isEmpty = false ∧
      leaves.alternation members = .ok (inner, graph) ∧
      graph.Branches inner (first :: second :: rest) ∧
      graph.size = rest.length + 4 := by
  obtain ⟨leaves, isLeaves, sizeEq, atomAt, successors⟩ :=
    exists_leaves (first :: second :: rest) {}
  have sizeEq : leaves.size = rest.length + 2 := sizeEq.trans (Nat.zero_add _)
  have nowhere : ∀ id, leaves.successors id = [] := fun id =>
    (successors id).trans (successors_of_size_le (Nat.zero_le id))
  obtain ⟨graph, isAlternation, graphSize, graphAtom, leads⟩ :=
    exists_alternation_of_singles rest.length sizeEq nowhere
  have isAtom : ∀ id, graph.atomAt id = (first :: second :: rest)[id]? := by
    intro id
    rw [graphAtom, atomAt_leaves atomAt]
  have silent : ∀ id, leaves.size ≤ id → graph.atomAt id = none := by
    intro id behind
    rw [graphAtom, atomAt_of_size_le behind]
  have joinNowhere : graph.successors (leaves.size + 1) = [] := by
    rw [leads, if_neg (by omega), if_neg (by omega)]
  refine ⟨_, leaves, ⟨leaves.size, leaves.size + 1⟩, graph, isLeaves, rfl,
    isAlternation, ⟨isAtom, ?_, ?_, ?_⟩, ?_⟩
  · rw [graphSize]
    exact Nat.lt_succ_self _
  · intro place within
    refine Or.inr ⟨silent _ (Nat.le_refl _), Nat.ne_of_lt (Nat.lt_succ_self _),
      ?_⟩
    rw [leads, if_neg (Nat.lt_irrefl _), if_pos rfl]
    exact List.mem_range'_1.mpr ⟨Nat.zero_le _, by rwa [Nat.zero_add]⟩
  · intro place within
    have below : place < leaves.size := by
      rw [sizeEq]
      exact within
    refine Or.inr ⟨Nat.ne_of_lt (Nat.lt_succ_of_lt below), ?_,
      silent _ (Nat.le_succ _), joinNowhere⟩
    rw [leads, if_pos below]
  · rw [graphSize, sizeEq]

/-- A choice between the points of at least one atom. -/
theorem exists_branches {atoms : List Atom} (nonempty : atoms ≠ []) :
    ∃ members leaves inner graph,
      Model.fragmentsOfBranches (atoms.map Model.leaf) {} =
        .ok (members, leaves) ∧
      members.isEmpty = false ∧
      leaves.alternation members = .ok (inner, graph) ∧
      graph.Branches inner atoms ∧ graph.size ≤ atoms.length + 2 := by
  match atoms, nonempty with
  | [atom], _ =>
      obtain ⟨leaves, isLeaves, sizeEq, atomAt, successors⟩ :=
        exists_leaves [atom] {}
      refine ⟨_, leaves, .single 0, leaves, isLeaves, rfl, rfl, ?_, ?_⟩
      · have onlyPlace : ∀ place, place < [atom].length → place = 0 :=
          fun place within => Nat.lt_one_iff.mp within
        have nowhere : leaves.successors 0 = [] :=
          (successors 0).trans (successors_of_size_le (Nat.zero_le 0))
        refine ⟨atomAt_leaves atomAt, ?_, ?_, ?_⟩
        · rw [sizeEq]
          exact Nat.one_pos
        · exact fun place within => Or.inl (onlyPlace place within)
        · intro place within
          rw [onlyPlace place within]
          exact Or.inl ⟨rfl, nowhere⟩
      · rw [sizeEq]
        exact Nat.le_add_left 1 2
  | first :: second :: rest, _ =>
      obtain ⟨members, leaves, inner, graph, isLeaves, nonempty, isChoice,
        branches, sizeEq⟩ := exists_branches_of_two first second rest
      refine ⟨members, leaves, inner, graph, isLeaves, nonempty, isChoice,
        branches, ?_⟩
      rw [sizeEq]
      rfl

/-! ## The loop -/

/-- Between two new points the fragment is repeated: the first one leads to it
and to the second one, and its exit leads back. -/
structure Repeated (graph : FragmentGraph) (inner : Fragment)
    (after : FragmentGraph) : Prop where
  size_eq : after.size = graph.size + 2
  atomAt : ∀ id, after.atomAt id = graph.atomAt id
  successors : ∀ id, after.successors id =
    if id = inner.exit then graph.successors id ++ [graph.size]
    else if id = graph.size then [inner.entry, graph.size + 1]
    else graph.successors id

theorem exists_zeroOrMore {graph : FragmentGraph} {inner : Fragment}
    (present : inner.exit < graph.size) :
    ∃ after,
      graph.zeroOrMore inner =
        .ok (⟨graph.size, graph.size + 1⟩, after) ∧
      graph.Repeated inner after := by
  have forkPresent : inner.exit <
      (graph.forkTo [inner.entry, graph.size + 1]).size := by
    rw [size_forkTo]
    omega
  refine ⟨(graph.forkTo [inner.entry, graph.size + 1]).lead inner.exit
    [graph.size], ?_, ?_, ?_, ?_⟩
  · rw [zeroOrMore_eq, connect_of_lt graph.size forkPresent]
    rfl
  · rw [size_lead, size_forkTo]
  · intro id
    rw [atomAt_lead, atomAt_forkTo]
  · intro id
    rw [successors_lead [graph.size] forkPresent, successors_forkTo]
    by_cases atExit : id = inner.exit
    · rw [if_pos atExit, if_pos atExit, if_neg (by omega)]
    · rw [if_neg atExit, if_neg atExit]

section Looping

variable {graph after : FragmentGraph} {inner : Fragment} {atoms : List Atom}

theorem Branches.length_le (branches : graph.Branches inner atoms) :
    atoms.length ≤ graph.size := by
  have missing := branches.atomAt graph.size
  rw [atomAt_of_size_le (Nat.le_refl _)] at missing
  exact List.getElem?_eq_none_iff.mp missing.symm

theorem Repeated.silent (repeated : graph.Repeated inner after) {id : Nat}
    (noAtom : graph.atomAt id = none) : after.readsAt id = false := by
  rw [Bool.eq_false_iff]
  intro reads
  obtain ⟨atom, isAtom⟩ := (readsAt_iff after id).mp reads
  rw [repeated.atomAt, noAtom] at isAtom
  cases isAtom

section Area

variable {area : Set Nat}

/-- From the first point the fragment and the end are reached. -/
theorem Branches.drifts_entry (branches : graph.Branches inner atoms)
    (repeated : graph.Repeated inner after)
    (stays : Stays after (graph.size + 1) area) (member : graph.size ∈ area)
    (numbered : graph.size < pastExit) :
    ∀ next ∈ [inner.entry, graph.size + 1],
      after.Drifts (graph.size + 1) [graph.size] next := by
  intro next isNext
  have exitPresent := branches.present
  have start : after.Drifts (graph.size + 1) [graph.size] graph.size :=
    Search.reachable_start (List.mem_singleton_self _)
  apply start.next stays (List.forall_mem_singleton.mpr member)
    (Nat.ne_of_lt numbered) (by omega)
    (repeated.silent (atomAt_of_size_le (Nat.le_refl _)))
  rw [repeated.successors, if_neg (by omega), if_pos rfl]
  exact isNext

/-- From the first point the points of the atoms are reached. -/
theorem Branches.drifts_place (branches : graph.Branches inner atoms)
    (repeated : graph.Repeated inner after)
    (stays : Stays after (graph.size + 1) area) (member : graph.size ∈ area)
    (numbered : graph.size < pastExit) {place : Nat}
    (within : place < atoms.length) :
    after.Drifts (graph.size + 1) [graph.size] place := by
  have entryDrifts := branches.drifts_entry repeated stays member numbered
    inner.entry List.mem_cons_self
  rcases branches.enters place within with
    isEntry | ⟨noAtom, notExit, isNext⟩
  · rw [isEntry]
    exact entryDrifts
  · have entryPresent := lt_size_of_mem_successors isNext
    apply entryDrifts.next stays (List.forall_mem_singleton.mpr member)
      (by omega) (by omega) (repeated.silent noAtom)
    rw [repeated.successors, if_neg notExit, if_neg (by omega)]
    exact isNext

/-- A repeated choice between atoms begins again after each of them. -/
theorem Branches.loops (branches : graph.Branches inner atoms)
    (repeated : graph.Repeated inner after)
    (stays : Stays after (graph.size + 1) area) (member : graph.size ∈ area)
    (numbered : graph.size < pastExit) :
    after.Loops ⟨graph.size, graph.size + 1⟩ (atoms.map Atom.name) := by
  have few := branches.length_le
  have exitPresent := branches.present
  refine ⟨⟨graph.size + 1, ?_, ?_⟩, ?_, ?_⟩
  · exact branches.drifts_entry repeated stays member numbered _
      (List.mem_cons_of_mem _ (List.mem_singleton_self _))
  · exact Or.inr
      ⟨rfl, repeated.silent (atomAt_of_size_le (Nat.le_succ _))⟩
  · intro name
    rw [List.mem_map]
    constructor
    · intro listed
      obtain ⟨atom, isListed, isName⟩ := listed
      obtain ⟨place, isPlace⟩ := List.getElem?_of_mem isListed
      have within := (List.getElem?_eq_some_iff.mp isPlace).1
      refine ⟨place, branches.drifts_place repeated stays member numbered
        within, by omega, atom, ?_, isName⟩
      rw [repeated.atomAt, branches.atomAt, isPlace]
    · intro reads
      obtain ⟨id, _, _, atom, isAtom, isName⟩ := reads
      rw [repeated.atomAt, branches.atomAt] at isAtom
      exact ⟨atom, List.mem_of_getElem? isAtom, isName⟩
  · intro id name reads
    obtain ⟨_, atom, isAtom, _⟩ := reads
    rw [repeated.atomAt, branches.atomAt] at isAtom
    have within := (List.getElem?_eq_some_iff.mp isAtom).1
    have isFollowing : after.following (graph.size + 1) id =
        after.successors id := if_neg (by omega)
    change after.following (graph.size + 1) id ≠ [] ∧
      ∀ next ∈ after.following (graph.size + 1) id, _
    rw [isFollowing, repeated.successors]
    rcases branches.leaves id within with
      ⟨atExit, nowhere⟩ | ⟨notExit, leads, noAtom, nowhere⟩
    · rw [if_pos atExit, nowhere]
      refine ⟨List.cons_ne_nil _ _, ?_⟩
      exact List.forall_mem_singleton.mpr (Or.inl rfl)
    · rw [if_neg notExit, if_neg (by omega), leads]
      refine ⟨List.cons_ne_nil _ _, List.forall_mem_singleton.mpr ?_⟩
      refine Or.inr ⟨by omega, ?_, repeated.silent noAtom, ?_⟩
      · change inner.exit ≠ graph.size + 1
        omega
      · rw [repeated.successors, if_pos rfl, nowhere]
        rfl

end Area

end Looping

end FragmentGraph

/-! ## Compilation -/

namespace Content

/-- What the model of mixed content is lowered to begins again after each
name. The point numbers have 32 bits. -/
theorem lowered_mixedModel {atoms : List Atom}
    (numbered : atoms.length + 4 ≤ 2 ^ 32) :
    ∃ fragment graph, (mixedModel atoms).lowered = .ok (fragment, graph) ∧
      graph.size ≤ pastExit + 1 ∧
      ∀ area, Stays graph fragment.exit area → fragment.entry ∈ area →
        graph.Loops fragment (atoms.map Atom.name) := by
  by_cases isEmpty : atoms = []
  · subst isEmpty
    have readsNothing : ∀ id name,
        ¬ (addEpsilon {}).2.ReadsName id name := by
      intro id name reads
      obtain ⟨_, atom, isAtom, _⟩ := reads
      rw [addEpsilon, atomAt_addPoint,
        atomAt_of_size_le (Nat.zero_le id), ite_self] at isAtom
      cases isAtom
    refine ⟨.single 0, (addEpsilon {}).2, rfl, by decide, ?_⟩
    intro area stays member
    refine ⟨⟨0, ?_, Or.inr ⟨rfl, rfl⟩⟩, ?_, ?_⟩
    · exact Search.reachable_start (List.mem_singleton_self 0)
    · intro name
      refine iff_of_false List.not_mem_nil ?_
      intro reads
      obtain ⟨id, _, readsName⟩ := reads
      exact readsNothing id name readsName
    · intro id name reads
      exact absurd reads (readsNothing id name)
  · obtain ⟨members, leaves, inner, graph, isLeaves, nonempty, isChoice,
      branches, few⟩ := exists_branches isEmpty
    obtain ⟨after, isLoop, repeated⟩ := exists_zeroOrMore branches.present
    refine ⟨⟨graph.size, graph.size + 1⟩, after, ?_, ?_, ?_⟩
    · have isFragment : (mixedModel atoms).fragment {} =
          .ok (some ⟨graph.size, graph.size + 1⟩, after) := by
        have isRepeated : graph.occurring inner Occurs.zeroOrMore =
            graph.zeroOrMore inner := rfl
        change (Model.node
          { kind := .choice, occurs := Occurs.zeroOrMore }
          (atoms.map Model.leaf)).fragment {} = _
        rw [Model.fragment]
        simp only [isLeaves, ok_bind, nonempty, isChoice, isRepeated, isLoop]
        rfl
      rw [Model.lowered, isFragment]
      rfl
    · rw [repeated.size_eq, pastExit]
      omega
    · intro area stays member
      apply branches.loops repeated stays member
      rw [pastExit]
      omega

end Content

namespace Automaton.Store

open Content

variable {store : Store}

/-- A store that allows a node makes a single one for mixed content. It
accepts, and each name of the list leads from it to itself. `numbered` is the
limit of the 32 bits in which points are numbered: the fragment has four points
more than the list has names. -/
theorem compileModel_mixed (reached : store.Reached)
    (allowed : 1 ≤ store.stateLimit) {atoms : List Atom}
    (numbered : atoms.length + 4 ≤ 2 ^ 32) {model : Model}
    (isModel : (Content.mixed atoms).elementModel = some model) :
    ∃ start after,
      store.compileModel model = .ok (.ok start, after) ∧
      after.liveCount = store.liveCount + 1 ∧
      ¬ store.Live start ∧
      (∀ id, after.Live id ↔ store.Live id ∨ id = start) ∧
      Keeps store after ∧
      ∃ node, after.node start = .ok node ∧
        node.accepting = true ∧ node.role = .ordinary ∧
        ∀ name, node.transitions.find? name =
          if name ∈ atoms.map Atom.name then some start else none := by
  cases isModel
  obtain ⟨fragment, graph, isLowered, few, loops⟩ :=
    lowered_mixedModel numbered
  obtain ⟨other, otherGraph, region, isOther, whole, _⟩ :=
    lowered_region (boundsOrdered_mixedModel atoms)
  rw [isLowered] at isOther
  cases isOther
  have member : fragment.entry ∈ insert pastExit region :=
    Set.mem_insert_of_mem pastExit whole.entry_mem
  obtain ⟨start, after, isCompiled, grown, isNode⟩ :=
    compile_loops reached.sound allowed whole.stays member
      (loops _ whole.stays member) few
  have isResult : store.compileModel (mixedModel atoms) =
      .ok (.ok start, after) := by
    rw [compileModel_eq, isLowered]
    exact isCompiled
  refine ⟨start, after, isResult,
    liveCount_compileModel reached.sound isResult grown,
    grown.isNew start (List.mem_singleton_self start), ?_, grown.keeps,
    isNode⟩
  intro id
  rw [live_compileModel_iff reached.sound isResult grown, List.mem_singleton]

/-- A store that allows a single node, and a list that has a name twice. -/
theorem compileModel_mixed_repeated_name :
    ∃ (store : Store) (atoms : List Atom) (model : Model) (start : Nat)
      (after : Store),
      store.Reached ∧ store.stateLimit = 1 ∧
      atoms = [.ofElement "b", .ofElement "a", .ofElement "b"] ∧
      atoms.length + 4 ≤ 2 ^ 32 ∧
      (Content.mixed atoms).elementModel = some model ∧
      store.compileModel model = .ok (.ok start, after) ∧
      after.listing start = .ok "D0 ✓: a → D0, b → D0\n" ∧
      after.liveCount = store.liveCount + 1 ∧
      ∃ node, after.node start = .ok node ∧
        node.accepting = true ∧ node.role = .ordinary ∧
        ∀ name, node.transitions.find? name =
          if name ∈ atoms.map Atom.name then some start else none := by
  have reached : Reached _ := .setStateLimit 1 .new
  have few : [Atom.ofElement "b", .ofElement "a", .ofElement "b"].length + 4 ≤
      2 ^ 32 := by
    decide
  obtain ⟨start, after, isResult, counted, _, _, _, isNode⟩ :=
    compileModel_mixed reached (Nat.le_refl 1) few rfl
  have isFirst : compileModel { ({} : Store) with stateLimit := 1 }
      (mixedModel [.ofElement "b", .ofElement "a", .ofElement "b"]) =
      .ok (.ok 0, _) := rfl
  rw [isFirst] at isResult
  cases isResult
  exact ⟨_, _, _, _, _, reached, rfl, rfl, few, rfl, isFirst, rfl, counted,
    isNode⟩

end Automaton.Store

end ContentModel
