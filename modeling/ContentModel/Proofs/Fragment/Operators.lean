import ContentModel.Fragment.Operators
import ContentModel.Proofs.Fragment.Wiring

/-!
# The languages of the operators

An operator takes operands that are placed in the graph, with exits that lead
nowhere yet. It gives a fragment of the same kind, which reads what the operator
stands for, and adds edges at its new points and at the exits of its operands
only.
-/

namespace ContentModel.FragmentGraph

/-! ## Single changes of a graph -/

/-- The graph in which a walk at `source` may also go on at `targets`. -/
def lead (graph : FragmentGraph) (source : Nat) (targets : List Nat) :
    FragmentGraph :=
  ⟨graph.points.modify source fun point =>
    { point with successors := point.successors ++ targets }⟩

theorem connectAll_of_lt
    {graph : FragmentGraph} {source : Nat} (targets : List Nat)
    (present : source < graph.size) :
    graph.connectAll source targets = .ok (graph.lead source targets) :=
  if_pos present

theorem connect_of_lt
    {graph : FragmentGraph} {source : Nat} (target : Nat)
    (present : source < graph.size) :
    graph.connect source target = .ok (graph.lead source [target]) :=
  connectAll_of_lt [target] present

@[simp] theorem size_lead
    (graph : FragmentGraph) (source : Nat) (targets : List Nat) :
    (graph.lead source targets).size = graph.size :=
  Array.size_modify

@[simp] theorem atomAt_lead
    (graph : FragmentGraph) (source : Nat) (targets : List Nat) (id : Nat) :
    (graph.lead source targets).atomAt id = graph.atomAt id := by
  simp only [atomAt, lead, Array.getElem?_modify]
  split
  · cases graph.points[id]? with
    | none => rfl
    | some point => rfl
  · rfl

theorem successors_lead
    {graph : FragmentGraph} {source : Nat} (targets : List Nat)
    (present : source < graph.size) (id : Nat) :
    (graph.lead source targets).successors id =
      if id = source then graph.successors id ++ targets
      else graph.successors id := by
  simp only [successors, lead, Array.getElem?_modify]
  by_cases same : id = source
  · subst same
    have found : graph.points[id]? = some graph.points[id] :=
      Array.getElem?_eq_getElem present
    simp only [if_true, found, Option.map_some]
  · rw [if_neg (Ne.symm same), if_neg same]

theorem extends_lead
    {graph : FragmentGraph} {source : Nat} (targets : List Nat)
    (present : source < graph.size) :
    Extends {source} graph (graph.lead source targets) where
  size_le := Nat.le_of_eq (size_lead graph source targets).symm
  atomAt id _ := atomAt_lead graph source targets id
  successors id _ kept := by
    rw [successors_lead targets present]
    exact if_neg kept

@[simp] theorem size_addPoint (graph : FragmentGraph) (point : Point) :
    (graph.addPoint point).2.size = graph.size + 1 :=
  Array.size_push _

private theorem getElem?_addPoint
    (graph : FragmentGraph) (point : Point) (id : Nat) :
    (graph.addPoint point).2.points[id]? =
      if id = graph.size then some point else graph.points[id]? :=
  Array.getElem?_push

theorem atomAt_addPoint (graph : FragmentGraph) (point : Point) (id : Nat) :
    (graph.addPoint point).2.atomAt id =
      if id = graph.size then point.atom else graph.atomAt id := by
  simp only [atomAt, getElem?_addPoint]
  split
  · rfl
  · rfl

theorem successors_addPoint
    (graph : FragmentGraph) (point : Point) (id : Nat) :
    (graph.addPoint point).2.successors id =
      if id = graph.size then point.successors else graph.successors id := by
  simp only [successors, getElem?_addPoint]
  by_cases same : id = graph.size
  · rw [if_pos same, if_pos same]
  · rw [if_neg same, if_neg same]

theorem extends_addPoint (graph : FragmentGraph) (point : Point) :
    Extends ∅ graph (graph.addPoint point).2 where
  size_le := by
    rw [size_addPoint]
    exact Nat.le_succ graph.size
  atomAt id present := by
    rw [atomAt_addPoint, if_neg (Nat.ne_of_lt present)]
  successors id present _ := by
    rw [successors_addPoint, if_neg (Nat.ne_of_lt present)]

theorem atomAt_of_size_le
    {graph : FragmentGraph} {id : Nat} (missing : graph.size ≤ id) :
    graph.atomAt id = none := by
  have notFound : graph.points[id]? = none := Array.getElem?_eq_none missing
  simp only [atomAt, notFound, Option.bind_none]

/-- Two new points that read nothing and lead nowhere look to a walk like
missing ones. -/
theorem size_fork (graph : FragmentGraph) :
    graph.fork.2.size = graph.size + 2 := by
  simp only [fork, addEpsilon, size_addPoint]

theorem fork_eq (graph : FragmentGraph) :
    graph.fork = ((graph.size, graph.size + 1), graph.fork.2) := by
  simp only [fork, addEpsilon, addPoint, size, Array.size_push]

theorem atomAt_fork (graph : FragmentGraph) (id : Nat) :
    graph.fork.2.atomAt id = graph.atomAt id := by
  simp only [fork, addEpsilon, atomAt_addPoint, size_addPoint]
  split
  · rw [atomAt_of_size_le (by omega)]
  · split
    · rw [atomAt_of_size_le (by omega)]
    · rfl

theorem successors_fork (graph : FragmentGraph) (id : Nat) :
    graph.fork.2.successors id = graph.successors id := by
  simp only [fork, addEpsilon, successors_addPoint, size_addPoint]
  split
  · rw [successors_of_size_le (by omega)]
  · split
    · rw [successors_of_size_le (by omega)]
    · rfl

/-! ## What an operator does -/

/-- The operation gives a fragment of the language, placed from `low` on, that
leads nowhere yet. Of the points that were there only those in `changed` get
further successors. -/
def Builds (thorough : Prop) (before : FragmentGraph) (changed : Set Nat)
    (low : Nat) (language : Language String)
    (result : Except Fault (Fragment × FragmentGraph)) : Prop :=
  ∃ whole after, result = .ok (whole, after) ∧
    Placed thorough after [] low after.size whole language ∧
    Extends changed before after

section Operators

variable {thorough : Prop} {graph : FragmentGraph} {low : Nat} {inner : Fragment}
  {language : Language String}

theorem builds_single (graph : FragmentGraph) (atom : Option Atom) :
    Builds thorough graph ∅ graph.size {(atom.map Atom.name).toList}
      (.ok (.single graph.size, (graph.addPoint { atom }).2)) := by
  refine ⟨_, _, rfl, ?_, extends_addPoint graph _⟩
  have present : graph.size < (graph.addPoint { atom }).2.size := by
    rw [size_addPoint]
    exact Nat.lt_succ_self graph.size
  have leads : (graph.addPoint { atom }).2.successors graph.size = [] := by
    rw [successors_addPoint, if_pos rfl]
  have reads : (graph.addPoint { atom }).2.reading graph.size =
      (atom.map Atom.name).toList := by
    rw [reading, atomAt_addPoint, if_pos rfl]
  rw [← reads, size_addPoint]
  exact Placed.single present leads

theorem builds_leaf (graph : FragmentGraph) (atom : Atom) :
    Builds thorough graph ∅ graph.size {[atom.name]}
      (.ok (graph.leaf atom)) :=
  builds_single graph (some atom)

theorem builds_nothing (graph : FragmentGraph) :
    Builds thorough graph ∅ graph.size 1 (.ok graph.nothing) :=
  builds_single graph none

/-! ### One after the other -/

theorem concat_placed {low₁ high₁ low₂ high₂ : Nat}
    {first second : Fragment} {language₁ language₂ : Language String}
    {onward : List Nat}
    (placed₁ : Placed thorough graph [] low₁ high₁ first language₁)
    (placed₂ : Placed thorough graph onward low₂ high₂ second language₂)
    (apart : high₁ ≤ low₂ ∨ high₂ ≤ low₁) :
    ∃ after,
      graph.concat first second =
        .ok (⟨first.entry, second.exit⟩, after) ∧
      Placed thorough after onward (min low₁ low₂) (max high₁ high₂)
        ⟨first.entry, second.exit⟩ (language₁ * language₂) ∧
      Extends {first.exit} graph after ∧ after.size = graph.size := by
  have present := placed₁.exit_lt_size
  have grows := extends_lead [second.entry] present
  have exitWithin := placed₁.exit_mem
  refine ⟨_, ?_, ?_, grows, size_lead ..⟩
  · rw [concat, connect_of_lt second.entry present]
    rfl
  · refine Placed.series (placed₁.rewire grows (fun _ _ same => same) ?_)
      (placed₂.extend grows ?_) apart
    · rw [successors_lead _ present, if_pos rfl, placed₁.onward]
      rfl
    · rintro id member rfl
      simp only [Set.mem_Ico] at member exitWithin
      omega

theorem concatAll_placed {middle high : Nat} {first : Fragment}
    {firstLanguage : Language String} {rest : List Fragment}
    {languages : List (Language String)}
    (placed : Placed thorough graph [] low middle first firstLanguage)
    (laid : Laid thorough graph [] middle high rest languages) :
    ∃ whole after,
      graph.concatAll first rest = .ok (whole, after) ∧
      Placed thorough after [] low high whole
        (firstLanguage * languages.prod) ∧
      Extends (Set.Ico low high) graph after ∧
      after.size = graph.size := by
  induction rest generalizing graph middle first firstLanguage languages with
  | nil =>
      cases laid with
      | nil ordered =>
          refine ⟨first, graph, rfl, ?_, Extends.refl _ graph, rfl⟩
          rw [List.prod_nil, mul_one]
          exact placed.widen (Nat.le_refl low) ordered
  | cons second rest inductionHypothesis =>
      cases laid with
      | @cons _ next _ _ language _ languages placedSecond laidRest =>
          have ordered := laidRest.low_le_high
          have firstOrdered := placed.low_lt_high
          have secondOrdered := placedSecond.low_lt_high
          have exitWithin := placed.exit_mem
          obtain ⟨joined, isConcat, placedJoined, grows, sameSize⟩ :=
            concat_placed placed placedSecond (Or.inl (Nat.le_refl middle))
          rw [Nat.min_eq_left (Nat.le_of_lt firstOrdered),
            Nat.max_eq_right (Nat.le_of_lt secondOrdered)] at placedJoined
          have laidJoined :
              Laid thorough joined [] next high rest languages := by
            apply laidRest.extend grows
            rintro id member rfl
            simp only [Set.mem_Ico] at member exitWithin
            omega
          obtain ⟨whole, after, isRest, placedWhole, growsRest, restSize⟩ :=
            inductionHypothesis placedJoined laidJoined
          refine ⟨whole, after, ?_, ?_, ?_, restSize.trans sameSize⟩
          · rw [concatAll, isConcat]
            exact isRest
          · rw [List.prod_cons, ← mul_assoc]
            exact placedWhole
          · apply grows.trans growsRest
            rintro id _ (rfl | member)
            · exact ⟨exitWithin.1, by
                simp only [Set.mem_Ico] at exitWithin
                omega⟩
            · exact member

/-- Fragments that fill the graph from `low` on, one after the other. -/
theorem builds_sequence {parts : List Fragment}
    {languages : List (Language String)}
    (laid : Laid thorough graph [] low graph.size parts languages) :
    Builds thorough graph (Set.Ico low graph.size) low languages.prod
      (graph.sequence parts) := by
  cases laid with
  | nil ordered =>
      obtain ⟨whole, after, result, placed, grows⟩ := builds_nothing graph
      refine ⟨whole, after, result, ?_, grows.mono ?_⟩
      · exact placed.widen ordered (Nat.le_refl after.size)
      · intro id _ member
        exact absurd member (Set.notMem_empty id)
  | cons placed rest =>
      obtain ⟨whole, after, result, placedWhole, grows, sameSize⟩ :=
        concatAll_placed placed rest
      refine ⟨whole, after, result, ?_, grows⟩
      rw [List.prod_cons, sameSize]
      exact placedWhole

/-! ### Side by side -/

theorem joinAll_laid {high : Nat} (join : Nat) {members : List Fragment}
    {languages : List (Language String)}
    (laid : Laid thorough graph [] low high members languages) :
    ∃ after, graph.joinAll join members = .ok after ∧
      Laid thorough after [join] low high members languages ∧
      Extends (Set.Ico low high) graph after ∧
      after.size = graph.size := by
  induction members generalizing graph low languages with
  | nil =>
      cases laid with
      | nil ordered =>
          exact ⟨graph, rfl, Laid.nil ordered, Extends.refl _ graph, rfl⟩
  | cons member members inductionHypothesis =>
      cases laid with
      | @cons _ middle _ _ language _ languages placed rest =>
          have present := placed.exit_lt_size
          have exitWithin := placed.exit_mem
          have ordered := rest.low_le_high
          have memberOrdered := placed.low_lt_high
          simp only [Set.mem_Ico] at exitWithin
          have grows := extends_lead [join] present
          have placedJoined :
              Placed thorough (graph.lead member.exit [join]) [join] low
                middle member language := by
            apply placed.rewire grows (fun _ _ same => same)
            rw [successors_lead _ present, if_pos rfl, placed.onward]
            rfl
          have restKept :
              Laid thorough (graph.lead member.exit [join]) [] middle high
                members languages := by
            apply rest.extend grows
            rintro id inside rfl
            simp only [Set.mem_Ico] at inside
            omega
          obtain ⟨after, isRest, laidRest, growsRest, sameSize⟩ :=
            inductionHypothesis restKept
          refine ⟨after, ?_, Laid.cons (placedJoined.extend growsRest ?_)
            laidRest, grows.trans growsRest ?_, ?_⟩
          · rw [joinAll, connect_of_lt join present]
            exact isRest
          · intro id inside isChanged
            simp only [Set.mem_Ico] at inside isChanged
            omega
          · intro id _ isChanged
            simp only [Set.mem_singleton_iff, Set.mem_Ico] at isChanged ⊢
            omega
          · rw [sameSize, size_lead]

/-- The graph of a fork whose first point leads to the given ones. -/
def forkTo (graph : FragmentGraph) (targets : List Nat) :
    FragmentGraph :=
  graph.fork.2.lead graph.size targets

theorem size_forkTo (graph : FragmentGraph) (targets : List Nat) :
    (graph.forkTo targets).size = graph.size + 2 := by
  rw [forkTo, size_lead, size_fork]

theorem atomAt_forkTo
    (graph : FragmentGraph) (targets : List Nat) (id : Nat) :
    (graph.forkTo targets).atomAt id = graph.atomAt id := by
  rw [forkTo, atomAt_lead, atomAt_fork]

theorem successors_forkTo
    (graph : FragmentGraph) (targets : List Nat) (id : Nat) :
    (graph.forkTo targets).successors id =
      if id = graph.size then targets else graph.successors id := by
  have present : graph.size < graph.fork.2.size := by
    rw [size_fork]
    omega
  rw [forkTo, successors_lead targets present, successors_fork]
  by_cases same : id = graph.size
  · rw [if_pos same, if_pos same, successors_of_size_le (Nat.le_of_eq same.symm)]
    rfl
  · rw [if_neg same, if_neg same]

private theorem extends_forkTo (graph : FragmentGraph) (targets : List Nat) :
    Extends ∅ graph (graph.forkTo targets) where
  size_le := by
    rw [size_forkTo]
    exact Nat.le_add_right graph.size 2
  atomAt id _ := atomAt_forkTo graph targets id
  successors id present _ := by
    rw [successors_forkTo, if_neg (Nat.ne_of_lt present)]

/-- Behind the points of `graph` there are one at which walks part for
`targets` and one at which they meet. -/
private structure Forked (graph after : FragmentGraph) (targets : List Nat) :
    Prop where
  size : after.size = graph.size + 2
  choiceLeads : after.successors graph.size = targets
  joinEnds : after.successors (graph.size + 1) = []
  choiceSilent : after.reading graph.size = []
  joinSilent : after.reading (graph.size + 1) = []

private theorem forked_of_extends {after : FragmentGraph}
    {targets : List Nat} {changed : Set Nat}
    (grows : Extends changed (graph.forkTo targets) after)
    (sameSize : after.size = (graph.forkTo targets).size)
    (below : ∀ id ∈ changed, id < graph.size) :
    Forked graph after targets := by
  have sizeEq := size_forkTo graph targets
  have silent : ∀ id < graph.size + 2, graph.size ≤ id →
      after.reading id = [] := by
    intro id present fresh
    rw [grows.reading (by omega), reading, forkTo, atomAt_lead, atomAt_fork,
      atomAt_of_size_le fresh]
    rfl
  have leads : ∀ id < graph.size + 2, graph.size ≤ id →
      after.successors id =
        if id = graph.size then targets else graph.successors id := by
    intro id present fresh
    have kept : id ∉ changed := fun isChanged => by
      have := below id isChanged
      omega
    rw [grows.successors id (by omega) kept, successors_forkTo]
  constructor
  · rw [sameSize, sizeEq]
  · rw [leads _ (by omega) (by omega), if_pos rfl]
  · rw [leads _ (by omega) (by omega), if_neg (by omega),
      successors_of_size_le (by omega)]
  · exact silent _ (by omega) (by omega)
  · exact silent _ (by omega) (by omega)

/-- Branches between the two points of a fork, with or without a way past
them. -/
private theorem Forked.branch {after : FragmentGraph} {targets : List Nat}
    {branches : List Fragment} {languages : List (Language String)}
    (forked : Forked graph after targets)
    (laid :
      Laid thorough after [graph.size + 1] low graph.size branches languages)
    (opens : targets ≠ [])
    (leads : ∀ next ∈ targets,
      next ∈ branches.map Fragment.entry ∨ next = graph.size + 1) :
    Placed thorough after [] low after.size ⟨graph.size, graph.size + 1⟩
      (targets.map (after.passages (graph.size + 1))).sum := by
  have ordered := laid.low_le_high
  have sameSize := forked.size
  have joinPresent : graph.size + 1 < after.size := by omega
  have placed :
      Placed thorough after [] low after.size ⟨graph.size, graph.size + 1⟩
        (after.passages (graph.size + 1) graph.size) :=
    laid.branch (by simp) (by simp) (by omega) joinPresent
      (by rwa [forked.choiceLeads]) (by rwa [forked.choiceLeads])
      forked.joinEnds (Nat.le_refl low) (by omega)
      ⟨ordered, by omega⟩ ⟨by omega, joinPresent⟩
  rw [passages_of_silent (by omega) forked.choiceSilent,
    forked.choiceLeads] at placed
  exact placed

theorem alternation_eq (first second : Fragment)
    (rest : List Fragment) :
    graph.alternation (first :: second :: rest) = do
      let after ← (graph.forkTo
        ((first :: second :: rest).map Fragment.entry)).joinAll
          (graph.size + 1) (first :: second :: rest)
      return (⟨graph.size, graph.size + 1⟩, after) := by
  have present : graph.size < graph.fork.2.size := by
    rw [size_fork]
    omega
  have connected := connectAll_of_lt
    ((first :: second :: rest).map Fragment.entry) present
  rw [alternation, fork_eq]
  · simp only [connected]
    rfl
  · simp
  · simp

/-- A choice between at least one branch. -/
theorem builds_alternation {branches : List Fragment}
    {languages : List (Language String)}
    (laid : Laid thorough graph [] low graph.size branches languages)
    (nonempty : branches ≠ []) :
    Builds thorough graph (Set.Ico low graph.size) low languages.sum
      (graph.alternation branches) := by
  match branches, laid, nonempty with
  | [branch], .cons placed (.nil ordered), _ =>
      refine ⟨branch, graph, rfl, ?_, Extends.refl _ graph⟩
      rw [List.sum_cons, List.sum_nil, add_zero]
      exact placed.widen (Nat.le_refl low) ordered
  | first :: second :: rest, laid, nonempty =>
      have forkGrows := extends_forkTo graph
        ((first :: second :: rest).map Fragment.entry)
      obtain ⟨after, isJoined, joined, grows, sameSize⟩ :=
        joinAll_laid (graph.size + 1) <|
          laid.extend forkGrows fun id _ => Set.notMem_empty id
      have forked := forked_of_extends grows sameSize
        fun id inside => inside.2
      have placed := forked.branch joined (by simp)
        fun next isNext => Or.inl isNext
      have languageEq := joined.sum_passages (by simp)
        (by rw [forked.size]; omega) forked.joinSilent
      rw [List.map_map] at placed
      refine ⟨_, after, ?_, languageEq ▸ placed, forkGrows.trans grows ?_⟩
      · rw [alternation_eq, isJoined]
        rfl
      · rintro id _ (nothing | member)
        · exact absurd nothing (Set.notMem_empty id)
        · exact member

/-! ### Skipping and repeating -/

/-- An operand after its exit was led on to a point of a fork. -/
private theorem forkTo_lead (target : Nat) (targets : List Nat)
    (placed : Placed thorough graph [] low graph.size inner language) :
    ∃ after,
      (graph.forkTo targets).connect inner.exit target = .ok after ∧
      after = (graph.forkTo targets).lead inner.exit [target] ∧
      Forked graph after targets ∧
      Placed thorough after [target] low graph.size inner language ∧
      Extends {inner.exit} graph after := by
  have forkGrows := extends_forkTo graph targets
  have kept := placed.extend forkGrows fun id _ => Set.notMem_empty id
  have present := kept.exit_lt_size
  have grows := extends_lead [target] present
  refine ⟨_, connect_of_lt target present, rfl, ?_, ?_, ?_⟩
  · apply forked_of_extends grows (size_lead ..)
    rintro id rfl
    exact placed.exit_mem.2
  · apply kept.rewire grows (fun _ _ same => same)
    rw [successors_lead _ present, if_pos rfl, kept.onward]
    rfl
  · apply forkGrows.trans grows
    rintro id _ (nothing | same)
    · exact absurd nothing (Set.notMem_empty id)
    · exact same

theorem fork_connectAll (targets : List Nat) :
    graph.fork.2.connectAll graph.size targets =
      .ok (graph.forkTo targets) := by
  apply connectAll_of_lt targets
  rw [size_fork]
  omega

theorem optional_eq (inner : Fragment) :
    graph.optional inner = do
      let after ← (graph.forkTo [inner.entry, graph.size + 1]).connect
        inner.exit (graph.size + 1)
      return (⟨graph.size, graph.size + 1⟩, after) := by
  rw [optional, fork_eq]
  simp only [fork_connectAll]
  rfl

theorem zeroOrMore_eq (inner : Fragment) :
    graph.zeroOrMore inner = do
      let after ← (graph.forkTo [inner.entry, graph.size + 1]).connect
        inner.exit graph.size
      return (⟨graph.size, graph.size + 1⟩, after) := by
  rw [zeroOrMore, fork_eq]
  simp only [fork_connectAll]
  rfl

theorem builds_optional
    (placed : Placed thorough graph [] low graph.size inner language) :
    Builds thorough graph {inner.exit} low (1 + language)
      (graph.optional inner) := by
  obtain ⟨after, isLed, _, forked, led, grows⟩ :=
    forkTo_lead (graph.size + 1) [inner.entry, graph.size + 1] placed
  have joinPresent : graph.size + 1 < after.size := by
    rw [forked.size]
    omega
  have whole := forked.branch (.cons led (.nil (Nat.le_refl graph.size)))
    (by simp) (by simp)
  have languageEq :
      ([inner.entry, graph.size + 1].map
        (after.passages (graph.size + 1))).sum = 1 + language := by
    simp only [List.map_cons, List.map_nil, List.sum_cons, List.sum_nil,
      add_zero]
    rw [led.passages_entry (by simp), passages_exit joinPresent,
      forked.joinSilent, add_comm]
    exact congrArg (1 + ·) (mul_one language)
  refine ⟨_, after, ?_, languageEq ▸ whole, grows⟩
  rw [optional_eq, isLed]
  rfl

theorem builds_zeroOrMore
    (placed : Placed thorough graph [] low graph.size inner language) :
    Builds thorough graph {inner.exit} low (KStar.kstar language)
      (graph.zeroOrMore inner) := by
  obtain ⟨after, isLed, _, forked, led, grows⟩ :=
    forkTo_lead graph.size [inner.entry, graph.size + 1] placed
  have sameSize := forked.size
  have ordered := placed.low_lt_high
  have whole :
      Placed thorough after [] low after.size ⟨graph.size, graph.size + 1⟩
        (KStar.kstar language) :=
    led.star (by simp) (by simp) (by omega) (by omega) forked.choiceLeads
      forked.choiceSilent forked.joinSilent forked.joinEnds
      (Nat.le_refl low) (by omega) ⟨by omega, by omega⟩
      ⟨by omega, by omega⟩
  refine ⟨_, after, ?_, whole, grows⟩
  rw [zeroOrMore_eq, isLed]
  rfl

private theorem lead_comm {first second : Nat} (different : first ≠ second)
    (targets₁ targets₂ : List Nat) :
    (graph.lead first targets₁).lead second targets₂ =
      (graph.lead second targets₂).lead first targets₁ := by
  simp only [lead, FragmentGraph.mk.injEq]
  apply Array.ext_getElem?
  intro id
  simp only [Array.getElem?_modify]
  by_cases isFirst : first = id
  · subst isFirst
    simp only [if_true, if_neg (Ne.symm different)]
  · simp only [if_neg isFirst]

/-- A passage that may start again is wired like one that need not start. -/
theorem builds_oneOrMore
    (placed : Placed thorough graph [] low graph.size inner language) :
    Builds thorough graph {inner.exit} low (language * KStar.kstar language)
      (graph.oneOrMore inner) := by
  obtain ⟨after, _, isLead, forked, led, grows⟩ :=
    forkTo_lead graph.size [inner.entry, graph.size + 1] placed
  have sameSize := forked.size
  have ordered := placed.low_lt_high
  have exitWithin := placed.exit_mem
  have whole : Placed thorough after [] low after.size
      ⟨inner.entry, graph.size + 1⟩ (language * KStar.kstar language) :=
    led.plus (by simp) (by simp) (by omega) (by omega) forked.choiceLeads
      forked.choiceSilent forked.joinSilent forked.joinEnds
      (Nat.le_refl low) (by omega) ⟨by omega, by omega⟩
      ⟨by omega, by omega⟩
  have exitPresent : inner.exit < graph.fork.2.size := by
    have := exitWithin.2
    rw [size_fork]
    omega
  have choicePresent :
      graph.size < (graph.fork.2.lead inner.exit [graph.size]).size := by
    rw [size_lead, size_fork]
    omega
  refine ⟨_, after, ?_, whole, grows⟩
  rw [isLead, forkTo, lead_comm (Nat.ne_of_gt exitWithin.2), oneOrMore,
    fork_eq]
  simp only [connect_of_lt graph.size exitPresent]
  change (do
    let graph ← FragmentGraph.connectAll _ _ _
    return (_, graph)) = _
  rw [connectAll_of_lt _ choicePresent]
  rfl

end Operators

end ContentModel.FragmentGraph
