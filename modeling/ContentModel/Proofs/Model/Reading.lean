import ContentModel.Proofs.Model.Drafting

/-!
# Reading models that are put together

Readings of nodes and changes of them follow one another in any order, and each
reading moves the children of other nodes out of their buffers. Main statement:
`Attained.run_keeps`, a node keeps its particle and its children unless a call
says otherwise, no call adds children to a node whose children were read, and a
reading answers as if nothing had been read before.
-/

namespace ContentModel

namespace Workbench

end Workbench

namespace Drafting

variable {drafting before between after : Drafting} {id : Nat}
  {action : Action} {actions : List Action} {node : DraftNode}

/-! ## Readings among the calls -/

namespace Action

theorem Looks.isRead {bench : Workbench} (looks : action.Looks bench id) :
    action.IsRead := by
  cases action with
  | read root reading => trivial
  | place model => exact looks
  | setKind id kind => exact looks
  | setOccurs id min max => exact looks
  | setLeaf id atom => exact looks
  | addChild parent child => exact looks

theorem IsRead.added_eq_nil (isRead : action.IsRead) (id : Nat) :
    action.added id = [] := by
  cases action with
  | read root reading => rfl
  | place model => rfl
  | setKind id kind => rfl
  | setOccurs id min max => rfl
  | setLeaf id atom => rfl
  | addChild parent child => exact isRead.elim

end Action

/-! ## Single steps -/

/-- What a step leaves of a node. -/
structure Leaves (before : Drafting) (action : Action) (id : Nat)
    (node later : DraftNode) : Prop where
  children_eq : later.children = node.children ++ action.added id
  particle_eq : ¬ action.Sets id → later.particle = node.particle
  isFrozen_iff : later.isFrozen = true ↔
    node.isFrozen = true ∨ action.Looks before.bench id

namespace Leaves

/-- A node that a step does not touch. -/
theorem same (before : Drafting) (action : Action) (node : DraftNode)
    (notAdded : action.added id = [])
    (notLooked : ¬ action.Looks before.bench id) :
    Leaves before action id node node where
  children_eq := by rw [notAdded, List.append_nil]
  particle_eq _ := rfl
  isFrozen_iff := (or_iff_left notLooked).symm

/-- A node that is given another particle. -/
theorem setParticle (found : before.bench.nodes[id]? = some node) {root : Nat}
    (update : Particle → Particle) (isSet : root = id → action.Sets id)
    (notAdded : action.added id = [])
    (notLooked : ¬ action.Looks before.bench id) :
    ∃ later, (before.bench.change root fun node =>
        { node with particle := update node.particle }).nodes[id]? =
          some later ∧
      Leaves before action id node later := by
  by_cases isRoot : id = root
  · rw [← isRoot]
    refine ⟨_, Workbench.getElem?_change_self found, ?_⟩
    have unchanged := same before action node notAdded notLooked
    exact ⟨unchanged.children_eq,
      fun notSet => absurd (isSet isRoot.symm) notSet, unchanged.isFrozen_iff⟩
  · exact ⟨node, (Workbench.getElem?_change_of_ne isRoot).trans found,
      same before action node notAdded notLooked⟩

theorem addChild (found : before.bench.nodes[id]? = some node)
    {parent child : Nat} {bench : Workbench}
    (inside : parent < before.bench.size)
    (isAfter : before.bench.addChild parent child = .ok bench) :
    ∃ later, bench.nodes[id]? = some later ∧
      Leaves before (.addChild parent child) id node later := by
  obtain ⟨other, isOther⟩ := Workbench.exists_node inside
  obtain ⟨_, isOpen, isBench⟩ := Workbench.eq_of_addChild isOther isAfter
  rw [isBench]
  by_cases isParent : id = parent
  · subst isParent
    rw [found] at isOther
    cases isOther
    refine ⟨_, Workbench.getElem?_change_self found, ?_, fun _ => rfl,
      (or_iff_left not_false).symm⟩
    rw [DraftNode.children, DraftNode.children, isOpen, Action.added,
      if_pos rfl]
  · refine ⟨node, (Workbench.getElem?_change_of_ne isParent).trans found,
      same before _ node ?_ not_false⟩
    exact if_neg fun isSame => isParent isSame.symm

theorem settle (found : before.bench.nodes[id]? = some node) {root : Nat}
    {reading : Reading} {bench : Workbench}
    (settles : before.bench.Settles (reading.Looks before.bench root) bench) :
    ∃ later, bench.nodes[id]? = some later ∧
      Leaves before (.read root reading) id node later := by
  by_cases isLooked : reading.Looks before.bench root id
  · refine ⟨node.freeze, ?_, ?_, fun _ => node.particle_freeze, ?_⟩
    · rw [settles.read id isLooked, found]
      rfl
    · rw [node.children_freeze]
      exact (List.append_nil _).symm
    · exact iff_of_true node.isFrozen_freeze (Or.inr isLooked)
  · exact ⟨node, (settles.other id isLooked).trans found,
      same before _ node rfl isLooked⟩

theorem read (found : before.bench.nodes[id]? = some node) {root : Nat}
    {reading : Reading} {answer : Answer} {bench : Workbench}
    (leaves : reading.Leaves before.bench root answer bench) :
    ∃ later, bench.nodes[id]? = some later ∧
      Leaves before (.read root reading) id node later := by
  cases leaves with
  | plain _ settles =>
      exact settle found settles
  | @copy copied settled isCopied settles =>
      obtain ⟨later, isLater, leaves⟩ := settle found settles
      exact ⟨later, settled.extends_put _ id later isLater, leaves⟩

end Leaves

/-- A step does to a node what the action says. -/
theorem Sound.exists_later (sound : before.Sound (·.occurs.Ordered))
    (acts : Acts before action after)
    (found : before.bench.nodes[id]? = some node) :
    ∃ later, after.bench.nodes[id]? = some later ∧
      Leaves before action id node later := by
  cases acts with
  | @place model ordered =>
      exact ⟨node, before.bench.extends_place model id node found,
        .same before _ node rfl not_false⟩
  | setKind kind isHeld =>
      exact Leaves.setParticle found
        (fun particle => { particle with kind }) (·) rfl not_false
  | setOccurs isHeld isAfter =>
      obtain ⟨occurs, _, isBench⟩ := Workbench.eq_of_setOccurs isAfter
      rw [isBench]
      exact Leaves.setParticle found
        (fun particle => { particle with occurs }) (·) rfl not_false
  | @setLeaf root atom bench isHeld isAfter =>
      rw [Workbench.eq_of_setLeaf isAfter]
      exact Leaves.setParticle found
        (fun particle => { particle with kind := .leaf, atom := some atom })
        (·) rfl not_false
  | addChild parentHeld childHeld different isAfter =>
      exact Leaves.addChild found (sound.held_lt _ parentHeld) isAfter
  | @read root reading answer bench inside fits isRead =>
      obtain ⟨model, other, after, _, _, isOther, leaves⟩ :=
        sound.exists_read (fun _ ordered => ordered) inside fits
      rw [isRead] at isOther
      cases isOther
      exact Leaves.read found leaves

/-- A node whose children were read gets no more of them. -/
theorem Acts.added_eq_nil (acts : Acts before action after)
    (found : before.bench.nodes[id]? = some node)
    (isFrozen : node.isFrozen = true) : action.added id = [] := by
  cases acts with
  | place _ => rfl
  | setKind _ _ => rfl
  | setOccurs _ _ => rfl
  | setLeaf _ _ => rfl
  | read _ _ _ => rfl
  | @addChild parent child bench _ _ _ isAfter =>
      rw [Action.added]
      apply if_neg
      intro same
      rw [← same] at found
      obtain ⟨_, isOpen, _⟩ := Workbench.eq_of_addChild found isAfter
      rw [DraftNode.isFrozen, isOpen] at isFrozen
      exact Bool.false_ne_true isFrozen

/-- An action leads to one outcome at most. -/
theorem Acts.unique {other : Drafting} (acts : Acts before action after)
    (actsAgain : Acts before action other) : after = other := by
  cases acts with
  | place _ =>
      cases actsAgain
      rfl
  | setKind _ _ =>
      cases actsAgain
      rfl
  | setOccurs _ isAfter =>
      cases actsAgain with
      | setOccurs _ isOther =>
          rw [isAfter] at isOther
          cases isOther
          rfl
  | setLeaf _ isAfter =>
      cases actsAgain with
      | setLeaf _ isOther =>
          rw [isAfter] at isOther
          cases isOther
          rfl
  | addChild _ _ _ isAfter =>
      cases actsAgain with
      | addChild _ _ _ isOther =>
          rw [isAfter] at isOther
          cases isOther
          rfl
  | read _ _ isRead =>
      cases actsAgain with
      | read _ _ isOther =>
          rw [isRead] at isOther
          cases isOther
          rfl

/-! ## Runs -/

/-- The children of the node are read at some time of a run. -/
def LooksDuring (before : Drafting) (actions : List Action) (id : Nat) :
    Prop :=
  ∃ early action late between, actions = early ++ action :: late ∧
    Runs before early between ∧ action.Looks between.bench id

theorem looksDuring_nil : ¬ LooksDuring before [] id := by
  intro looks
  obtain ⟨early, action, late, between, isNil, _⟩ := looks
  exact List.append_ne_nil_of_right_ne_nil _ (List.cons_ne_nil _ _) isNil.symm

theorem looksDuring_cons_iff (acts : Acts before action between) :
    LooksDuring before (action :: actions) id ↔
      action.Looks before.bench id ∨ LooksDuring between actions id := by
  constructor
  · intro looks
    obtain ⟨early, looking, late, later, isActions, runs, looks⟩ := looks
    cases runs with
    | done _ =>
        cases isActions
        exact Or.inl looks
    | act actsFirst runs =>
        cases isActions
        rw [acts.unique actsFirst]
        exact Or.inr ⟨_, looking, late, later, rfl, runs, looks⟩
  · intro looks
    cases looks with
    | inl looks =>
        exact ⟨[], action, actions, before, rfl, .done before, looks⟩
    | inr looks =>
        obtain ⟨early, looking, late, later, isActions, runs, looks⟩ := looks
        refine ⟨action :: early, looking, late, later, ?_, .act acts runs,
          looks⟩
        rw [isActions, List.cons_append]

namespace Runs

/-- A run stops in between. -/
theorem split {early late : List Action}
    (runs : Runs before (early ++ late) after) :
    ∃ between, Runs before early between ∧ Runs between late after := by
  induction early generalizing before with
  | nil =>
      exact ⟨before, .done before, runs⟩
  | cons action early inductionHypothesis =>
      cases runs with
      | act acts runs =>
          obtain ⟨between, isEarly, isLate⟩ := inductionHypothesis runs
          exact ⟨between, .act acts isEarly, isLate⟩

theorem unique {other : Drafting} (runs : Runs before actions after)
    (runsAgain : Runs before actions other) : after = other := by
  induction runs with
  | done drafting =>
      cases runsAgain
      rfl
  | act acts _ inductionHypothesis =>
      cases runsAgain with
      | act actsAgain runsAgain =>
          rw [← acts.unique actsAgain] at runsAgain
          exact inductionHypothesis runsAgain

end Runs

theorem Sound.run (sound : before.Sound (·.occurs.Ordered))
    (runs : Runs before actions after) : after.Sound (·.occurs.Ordered) := by
  induction runs with
  | done drafting =>
      exact sound
  | act acts _ inductionHypothesis =>
      exact inductionHypothesis
        (sound.act (fun _ ordered => ordered) acts.keeps_ordered acts)

/-- A run does to a node what its actions say. -/
theorem Sound.exists_later_run (sound : before.Sound (·.occurs.Ordered))
    (runs : Runs before actions after)
    (found : before.bench.nodes[id]? = some node) :
    ∃ later, after.bench.nodes[id]? = some later ∧
      later.children = node.children ++ actions.flatMap (·.added id) ∧
      ((∀ action ∈ actions, ¬ action.Sets id) →
        later.particle = node.particle) ∧
      (later.isFrozen = true ↔
        node.isFrozen = true ∨ LooksDuring before actions id) := by
  induction runs generalizing node with
  | done drafting =>
      exact ⟨node, found, (List.append_nil _).symm, fun _ => rfl,
        (or_iff_left looksDuring_nil).symm⟩
  | @act before between after action actions acts _ inductionHypothesis =>
      obtain ⟨next, isNext, leaves⟩ := sound.exists_later acts found
      have soundNext :=
        sound.act (fun _ ordered => ordered) acts.keeps_ordered acts
      obtain ⟨later, isLater, children_eq, particle_eq, isFrozen_iff⟩ :=
        inductionHypothesis soundNext isNext
      refine ⟨later, isLater, ?_, ?_, ?_⟩
      · rw [children_eq, leaves.children_eq, List.append_assoc,
          List.flatMap_cons]
      · intro notSet
        obtain ⟨notNow, notLater⟩ := List.forall_mem_cons.mp notSet
        exact (particle_eq notLater).trans (leaves.particle_eq notNow)
      · rw [isFrozen_iff, leaves.isFrozen_iff, looksDuring_cons_iff acts,
          or_assoc]

/-- A node whose children were read gets no more of them in a run. -/
theorem Sound.added_eq_nil (sound : before.Sound (·.occurs.Ordered))
    (runs : Runs before actions after)
    (found : before.bench.nodes[id]? = some node)
    (isFrozen : node.isFrozen = true) :
    actions.flatMap (·.added id) = [] := by
  induction runs generalizing node with
  | done drafting =>
      rfl
  | act acts _ inductionHypothesis =>
      obtain ⟨next, isNext, leaves⟩ := sound.exists_later acts found
      rw [List.flatMap_cons, acts.added_eq_nil found isFrozen]
      exact inductionHypothesis
        (sound.act (fun _ ordered => ordered) acts.keeps_ordered acts) isNext
        (leaves.isFrozen_iff.mpr (Or.inl isFrozen))

/-- From the first reading of its children on a node gets no more of them. -/
theorem Sound.flatMap_added_of_looks
    (sound : before.Sound (·.occurs.Ordered))
    {early late : List Action}
    (runs : Runs before (early ++ action :: late) after)
    (found : before.bench.nodes[id]? = some node)
    (early_runs : Runs before early between)
    (looks : action.Looks between.bench id) :
    (early ++ action :: late).flatMap (·.added id) =
      early.flatMap (·.added id) := by
  obtain ⟨stop, isStop, runs⟩ := runs.split
  rw [isStop.unique early_runs] at runs
  cases runs with
  | act acts runs =>
      have soundBetween := sound.run early_runs
      obtain ⟨next, isNext, _⟩ := sound.exists_later_run early_runs found
      obtain ⟨later, isLater, leaves⟩ := soundBetween.exists_later acts isNext
      have soundLater := soundBetween.act (fun _ ordered => ordered)
        acts.keeps_ordered acts
      have isFrozen := leaves.isFrozen_iff.mpr (Or.inr looks)
      rw [List.flatMap_append, List.flatMap_cons,
        looks.isRead.added_eq_nil id,
        soundLater.added_eq_nil runs isLater isFrozen, List.append_nil,
        List.append_nil]

/-- What a run leaves of a node, and how calls for further children are
answered from then on. -/
structure Keeps (before : Drafting) (actions : List Action) (after : Drafting)
    (id : Nat) (node later : DraftNode) : Prop where
  found : after.bench.nodes[id]? = some later
  children_eq : later.children = node.children ++ actions.flatMap (·.added id)
  particle_eq : (∀ action ∈ actions, ¬ action.Sets id) →
    later.particle = node.particle
  isFrozen_iff : later.isFrozen = true ↔
    node.isFrozen = true ∨ LooksDuring before actions id
  /-- All children are in the buffer until they are read. -/
  buffered : later.isFrozen = false → later.pending = later.children
  /-- The buffer is empty once they were read. -/
  moved : later.isFrozen = true →
    later.pending = [] ∧ later.frozen = some later.children
  /-- Children that were read before stay as they are. -/
  fixed : node.isFrozen = true → later.children = node.children
  /-- Children that are read during the run stay as they are then. -/
  fixedSince : ∀ early action late between,
    actions = early ++ action :: late → Runs before early between →
    action.Looks between.bench id →
    later.children = node.children ++ early.flatMap (·.added id)
  refuses : later.isFrozen = true → ∀ child,
    after.bench.addChild id child =
      .error (if later.particle.kind = .leaf
        then .childOfLeaf (Model.particleText later.particle [])
        else .frozenChildren)
  accepts : later.isFrozen = false → later.particle.kind ≠ .leaf → ∀ child,
    ∃ bench, after.bench.addChild id child = .ok bench ∧
      bench.node id =
        { later with pending := later.children ++ [child] }

theorem Sound.keeps (sound : before.Sound (·.occurs.Ordered))
    (runs : Runs before actions after)
    (found : before.bench.nodes[id]? = some node) :
    ∃ later, Keeps before actions after id node later := by
  obtain ⟨later, isLater, children_eq, particle_eq, isFrozen_iff⟩ :=
    sound.exists_later_run runs found
  have isNode := Workbench.node_eq isLater
  have buffered (isOpen : later.isFrozen = false) :
      later.pending = later.children := by
    rw [DraftNode.isFrozen, Option.isSome_eq_false_iff,
      Option.isNone_iff_eq_none] at isOpen
    rw [DraftNode.children, isOpen]
  refine ⟨later, isLater, children_eq, particle_eq, isFrozen_iff, buffered,
    ?_, ?_, ?_, ?_, ?_⟩
  · intro isFrozen
    refine ⟨(sound.run runs).emptied id later isLater isFrozen, ?_⟩
    obtain ⟨children, same⟩ := Option.isSome_iff_exists.mp isFrozen
    rw [DraftNode.children, same]
  · intro isFrozen
    rw [children_eq, sound.added_eq_nil runs found isFrozen, List.append_nil]
  · intro early action late between isActions early_runs looks
    rw [isActions] at runs
    rw [children_eq, isActions,
      sound.flatMap_added_of_looks runs found early_runs looks]
  · intro isFrozen child
    rw [Workbench.addChild, isNode, if_pos isFrozen]
    split
    · rfl
    · rfl
  · intro isOpen notLeaf child
    refine ⟨after.bench.change id fun node =>
      { node with pending := node.pending ++ [child] }, ?_, ?_⟩
    · rw [Workbench.addChild, isNode, if_neg notLeaf, isOpen,
        if_neg Bool.false_ne_true]
    · rw [Workbench.node_eq (Workbench.getElem?_change_self isLater),
        buffered isOpen]

end Drafting

end ContentModel
