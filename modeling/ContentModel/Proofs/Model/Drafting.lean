import ContentModel.Proofs.Model.Readings

/-!
# Work on several models

A client has nodes at hand. It places models, gives nodes other particles, puts
nodes below others and reads nodes at any depth, in any order. Main statement:
`Attained.sound`, whatever was done, every node shows a model and a node at hand
stands below no other.
-/

namespace ContentModel

/-- The nodes that are worked on. -/
structure Drafting where
  bench : Workbench := {}
  /-- The nodes at hand. The others can only be read. -/
  held : List Nat := []

namespace Drafting

/-! ## Calls -/

/-- What is done to the nodes. -/
inductive Action where
  | place (model : Model)
  | setKind (id : Nat) (kind : ParticleKind)
  | setOccurs (id min : Nat) (max : Option Nat)
  | setLeaf (id : Nat) (atom : Atom)
  | addChild (parent child : Nat)
  | read (id : Nat) (reading : Reading)

/-- The calls that succeed, and what they leave. The topmost node of a new model
joins those at hand and so does a copy; a node that is put below another is not
at hand any more. -/
inductive Acts : Drafting → Action → Drafting → Prop
  | place (before : Drafting) {model : Model} :
      model.BoundsOrdered →
      Acts before (.place model)
        ⟨(before.bench.place model).2,
          (before.bench.place model).1 :: before.held⟩
  | setKind {before : Drafting} {id : Nat} (kind : ParticleKind) :
      id ∈ before.held →
      Acts before (.setKind id kind)
        ⟨before.bench.setKind id kind, before.held⟩
  | setOccurs {before : Drafting} {id min : Nat} {max : Option Nat}
      {bench : Workbench} :
      id ∈ before.held → before.bench.setOccurs id min max = .ok bench →
      Acts before (.setOccurs id min max) ⟨bench, before.held⟩
  | setLeaf {before : Drafting} {id : Nat} {atom : Atom} {bench : Workbench} :
      id ∈ before.held → before.bench.setLeaf id atom = .ok bench →
      Acts before (.setLeaf id atom) ⟨bench, before.held⟩
  | addChild {before : Drafting} {parent child : Nat} {bench : Workbench} :
      parent ∈ before.held → child ∈ before.held → parent ≠ child →
      before.bench.addChild parent child = .ok bench →
      Acts before (.addChild parent child) ⟨bench, before.held.erase child⟩
  | read {before : Drafting} {id : Nat} {reading : Reading} {answer : Answer}
      {bench : Workbench} :
      id < before.bench.size → reading.Fits →
      Look.read id reading before.bench = .ok (answer, bench) →
      Acts before (.read id reading) ⟨bench, answer.copies ++ before.held⟩

inductive Runs : Drafting → List Action → Drafting → Prop
  | done (drafting : Drafting) : Runs drafting [] drafting
  | act {before between after : Drafting} {action : Action}
      {actions : List Action} :
      Acts before action between → Runs between actions after →
      Runs before (action :: actions) after

/-- The nodes come to be by calls, of which only the allowed ones are made. -/
inductive Attained (allowed : Drafting → Action → Prop) : Drafting → Prop
  | new : Attained allowed {}
  | act {before after : Drafting} {action : Action} :
      Attained allowed before → allowed before action →
      Acts before action after → Attained allowed after

namespace Action

/-- The children that a node gets by the action. -/
def added (id : Nat) : Action → List Nat
  | addChild parent child => if parent = id then [child] else []
  | place _ | setKind _ _ | setOccurs _ _ _ | setLeaf _ _ | read _ _ => []

/-- The action gives the node another particle. -/
def Sets (id : Nat) : Action → Prop
  | setKind changed _ | setOccurs changed _ _ | setLeaf changed _ =>
    changed = id
  | place _ | addChild _ _ | read _ _ => False

/-- The action reads the children of the node. -/
def Looks (bench : Workbench) (id : Nat) : Action → Prop
  | read root reading => reading.Looks bench root id
  | place _ | setKind _ _ | setOccurs _ _ _ | setLeaf _ _ | addChild _ _ =>
    False

/-- The action keeps particles of a sort. -/
def Keeps (sort : Particle → Prop) (bench : Workbench) : Action → Prop
  | place model => model.Throughout sort
  | setKind id kind =>
    sort (bench.node id).particle →
      sort { (bench.node id).particle with kind }
  | setOccurs id _ _ => ∀ occurs : Occurs, occurs.Ordered →
    sort (bench.node id).particle →
      sort { (bench.node id).particle with occurs }
  | setLeaf id atom => sort (bench.node id).particle →
    sort { (bench.node id).particle with kind := .leaf, atom := some atom }
  | addChild _ _ | read _ _ => True

def IsRead : Action → Prop
  | read _ _ => True
  | place _ | setKind _ _ | setOccurs _ _ _ | setLeaf _ _ | addChild _ _ =>
    False

end Action

end Drafting

namespace Workbench

variable {bench before after : Workbench} {id : Nat}

/-! ## Single nodes -/

/-- The nodes that there were are still the same. -/
def Extends (before after : Workbench) : Prop :=
  ∀ (id : Nat) (node : DraftNode), before.nodes[id]? = some node →
    after.nodes[id]? = some node

theorem Extends.shows {model : Model} (grows : Extends before after)
    (shows : before.Shows id model) : after.Shows id model :=
  shows.frame (Set.mem_univ id)
    (fun id _ node found => ⟨node, grows id node found, rfl, rfl⟩)
    fun _ _ _ _ child _ => Set.mem_univ child

theorem getElem?_put (bench : Workbench) (node : DraftNode) (id : Nat) :
    (bench.put node).2.nodes[id]? =
      if id = bench.size then some node else bench.nodes[id]? :=
  Array.getElem?_push

/-- After a node was put on the bench each node is that one or was there. -/
theorem eq_or_of_put {node other : DraftNode}
    (found : (bench.put node).2.nodes[id]? = some other) :
    (id = bench.size ∧ other = node) ∨ bench.nodes[id]? = some other := by
  rw [getElem?_put] at found
  by_cases isNew : id = bench.size
  · rw [if_pos isNew] at found
    exact Or.inl ⟨isNew, (Option.some.inj found).symm⟩
  · rw [if_neg isNew] at found
    exact Or.inr found

theorem size_put (bench : Workbench) (node : DraftNode) :
    (bench.put node).2.size = bench.size + 1 :=
  Array.size_push node

theorem extends_put (bench : Workbench) (node : DraftNode) :
    Extends bench (bench.put node).2 := by
  intro id other found
  have inside : id < bench.size := (Array.getElem?_eq_some_iff.mp found).1
  rw [getElem?_put, if_neg inside.ne, found]

theorem getElem?_change_of_ne {update : DraftNode → DraftNode} {other : Nat}
    (different : other ≠ id) :
    (bench.change id update).nodes[other]? = bench.nodes[other]? := by
  rw [getElem?_change, if_neg different.symm]

theorem getElem?_change_self {update : DraftNode → DraftNode}
    {node : DraftNode} (found : bench.nodes[id]? = some node) :
    (bench.change id update).nodes[id]? = some (update node) := by
  rw [getElem?_change, if_pos rfl, found]
  rfl

/-- After a node was changed each node is the changed one or as it was. -/
theorem eq_or_of_change {update : DraftNode → DraftNode}
    {node later : DraftNode} {other : Nat}
    (found : bench.nodes[id]? = some node)
    (isLater : (bench.change id update).nodes[other]? = some later) :
    (other = id ∧ later = update node) ∨ bench.nodes[other]? = some later := by
  by_cases same : other = id
  · rw [same, getElem?_change_self found] at isLater
    exact Or.inl ⟨same, (Option.some.inj isLater).symm⟩
  · rw [getElem?_change_of_ne same] at isLater
    exact Or.inr isLater

theorem size_change (bench : Workbench) (id : Nat)
    (update : DraftNode → DraftNode) :
    (bench.change id update).size = bench.size :=
  Array.size_modify

theorem exists_node (inside : id < bench.size) :
    ∃ node, bench.nodes[id]? = some node :=
  ⟨_, Array.getElem?_eq_getElem inside⟩

/-- A node shows a model if its children do. -/
theorem exists_shows {node : DraftNode} (found : bench.nodes[id]? = some node)
    (each : ∀ child ∈ node.children, ∃ model, bench.Shows child model) :
    ∃ model, bench.Shows id model := by
  have all : ∃ members, List.Forall₂ bench.Shows node.children members := by
    generalize node.children = children at each
    induction children with
    | nil =>
        exact ⟨[], .nil⟩
    | cons child children inductionHypothesis =>
        obtain ⟨first, each⟩ := List.forall_mem_cons.mp each
        obtain ⟨model, shows⟩ := first
        obtain ⟨members, below⟩ := inductionHypothesis each
        exact ⟨model :: members, .cons shows below⟩
  obtain ⟨members, below⟩ := all
  exact ⟨_, .node found below⟩

theorem eq_of_setOccurs {min : Nat} {max : Option Nat}
    (isAfter : bench.setOccurs id min max = .ok after) :
    ∃ occurs : Occurs, occurs.Ordered ∧
      after = bench.change id fun node =>
        { node with particle := { node.particle with occurs } } := by
  rw [setOccurs, bind_eq_ok_iff] at isAfter
  obtain ⟨occurs, isOccurs, same⟩ := isAfter
  cases same
  refine ⟨occurs, ?_, rfl⟩
  cases max with
  | none =>
      cases isOccurs
      intro max impossible
      cases impossible
  | some max =>
      rw [Occurs.ofBounds] at isOccurs
      split at isOccurs
      · cases isOccurs
      · rename_i notLess
        cases isOccurs
        intro other same
        cases same
        exact Nat.le_of_not_lt notLess

theorem eq_of_setLeaf {atom : Atom}
    (isAfter : bench.setLeaf id atom = .ok after) :
    after = bench.change id fun node =>
      { node with
        particle :=
          { node.particle with kind := .leaf, atom := some atom } } := by
  rw [setLeaf] at isAfter
  split at isAfter
  · cases isAfter
    rfl
  · cases isAfter

theorem eq_of_addChild {child : Nat} {node : DraftNode}
    (found : bench.nodes[id]? = some node)
    (isAfter : bench.addChild id child = .ok after) :
    node.particle.kind ≠ .leaf ∧ node.frozen = none ∧
      after = bench.change id fun node =>
        { node with pending := node.pending ++ [child] } := by
  rw [addChild, node_eq found] at isAfter
  by_cases isLeaf : node.particle.kind = .leaf
  · rw [if_pos isLeaf] at isAfter
    cases isAfter
  · rw [if_neg isLeaf] at isAfter
    cases frozen : node.frozen with
    | some children =>
        rw [DraftNode.isFrozen, frozen] at isAfter
        cases isAfter
    | none =>
        rw [DraftNode.isFrozen, frozen] at isAfter
        cases isAfter
        exact ⟨isLeaf, rfl, rfl⟩

/-! ## Placing models -/

theorem place_node (particle : Particle) (children : List Model)
    (bench : Workbench) :
    place (.node particle children) bench =
      (placeAll children bench).2.put
        { particle, pending := (placeAll children bench).1 } := by
  rw [place]

theorem placeAll_cons (model : Model) (models : List Model)
    (bench : Workbench) :
    placeAll (model :: models) bench =
      ((place model bench).1 :: (placeAll models (place model bench).2).1,
        (placeAll models (place model bench).2).2) := by
  rw [placeAll]

mutual

/-- What is kept when a node is put on the bench is kept when a model is
placed. -/
theorem place_induction {motive : Workbench → Prop} {sort : Particle → Prop}
    (put : ∀ bench particle pending, sort particle → motive bench →
      motive (bench.put { particle, pending }).2) :
    ∀ {model : Model} {bench : Workbench},
      model.Throughout sort → motive bench → motive (place model bench).2
  | .node particle children, bench, throughout, holds => by
    obtain ⟨own, below⟩ := throughout
    rw [place_node]
    exact put _ particle _ own (placeAll_induction put below holds)

theorem placeAll_induction {motive : Workbench → Prop}
    {sort : Particle → Prop}
    (put : ∀ bench particle pending, sort particle → motive bench →
      motive (bench.put { particle, pending }).2) :
    ∀ {models : List Model} {bench : Workbench},
      (∀ model ∈ models, model.Throughout sort) → motive bench →
        motive (placeAll models bench).2
  | [], bench, _, holds => by
    rw [placeAll]
    exact holds
  | model :: models, bench, each, holds => by
    obtain ⟨first, others⟩ := List.forall_mem_cons.mp each
    rw [placeAll_cons]
    exact placeAll_induction put others (place_induction put first holds)

end

theorem extends_placeAll (models : List Model) (bench : Workbench) :
    Extends bench (placeAll models bench).2 := by
  have all : ∀ model ∈ models, model.Throughout fun _ => True :=
    fun model _ => model.throughout_of_forall fun _ => trivial
  refine placeAll_induction ?_ all fun _ _ found => found
  intro between particle pending _ grows id node found
  exact extends_put between _ id node (grows id node found)

theorem extends_place (model : Model) (bench : Workbench) :
    Extends bench (place model bench).2 := by
  obtain ⟨particle, children⟩ := model
  rw [place_node]
  intro id node found
  exact extends_put _ _ id node (extends_placeAll children bench id node found)

mutual

/-- A model that was placed is shown. -/
theorem shows_place : ∀ (model : Model) (bench : Workbench),
    (place model bench).2.Shows (place model bench).1 model
  | .node particle children, bench => by
    rw [place_node]
    have below := shows_placeAll children bench
    generalize placeAll children bench = placed at below ⊢
    refine shows_iff.mpr
      ⟨{ particle, pending := placed.1 }, ?_, rfl, ?_⟩
    · rw [getElem?_put]
      exact if_pos rfl
    · exact below.imp fun _ _ shows => (extends_put _ _).shows shows

theorem shows_placeAll : ∀ (models : List Model) (bench : Workbench),
    List.Forall₂ (placeAll models bench).2.Shows (placeAll models bench).1
      models
  | [], bench => by
    rw [placeAll]
    exact .nil
  | model :: models, bench => by
    rw [placeAll_cons]
    refine .cons ?_ (shows_placeAll models _)
    exact (extends_placeAll models _).shows (shows_place model bench)

end

end Workbench

namespace Drafting

variable {drafting before after : Drafting} {id : Nat}
  {sort : Particle → Prop}

/-! ## What stays true -/

/-- Every node shows a model, whose particles are of this sort, and a node at
hand stands below no other. -/
structure Sound (sort : Particle → Prop) (drafting : Drafting) : Prop where
  each : ∀ (id : Nat) (node : DraftNode),
    drafting.bench.nodes[id]? = some node → sort node.particle
  shows : ∀ id < drafting.bench.size, ∃ model, drafting.bench.Shows id model
  /-- The buffer of a node whose children were read is empty. -/
  emptied : ∀ (id : Nat) (node : DraftNode),
    drafting.bench.nodes[id]? = some node → node.isFrozen = true →
      node.pending = []
  held_lt : ∀ id ∈ drafting.held, id < drafting.bench.size
  nodup : drafting.held.Nodup
  apart : ∀ (id : Nat) (node : DraftNode),
    drafting.bench.nodes[id]? = some node →
      ∀ child ∈ node.children, child ∉ drafting.held

theorem sound_new : Sound sort {} where
  each id node impossible := by
    cases impossible
  shows id impossible := absurd impossible (Nat.not_lt_zero id)
  emptied id node impossible := by
    cases impossible
  held_lt id impossible := absurd impossible List.not_mem_nil
  nodup := List.nodup_nil
  apart id node impossible := by
    cases impossible

namespace Sound

theorem child_shows (sound : drafting.Sound sort) {node : DraftNode}
    (found : drafting.bench.nodes[id]? = some node) {child : Nat}
    (isChild : child ∈ node.children) :
    ∃ model, drafting.bench.Shows child model := by
  obtain ⟨model, shows⟩ :=
    sound.shows id (Array.getElem?_eq_some_iff.mp found).1
  cases shows with
  | node isNode below =>
      rw [found] at isNode
      cases isNode
      obtain ⟨member, _, shows⟩ := (exists_of_forall₂ below).1 child isChild
      exact ⟨member, shows⟩

theorem child_lt (sound : drafting.Sound sort) {node : DraftNode}
    (found : drafting.bench.nodes[id]? = some node) {child : Nat}
    (isChild : child ∈ node.children) : child < drafting.bench.size := by
  obtain ⟨model, shows⟩ := sound.child_shows found isChild
  exact shows.lt_size

/-- Some nodes may be put out of hand. -/
theorem fewer (sound : drafting.Sound sort) {held : List Nat}
    (subset : held ⊆ drafting.held) (nodup : held.Nodup) :
    Sound sort ⟨drafting.bench, held⟩ where
  each := sound.each
  shows := sound.shows
  emptied := sound.emptied
  held_lt id isHeld := sound.held_lt id (subset isHeld)
  nodup := nodup
  apart id node found child isChild isHeld :=
    sound.apart id node found child isChild (subset isHeld)

/-- A new node may stand above nodes that are not at hand. -/
theorem put {bench : Workbench} {held : List Nat}
    (sound : Sound sort ⟨bench, held⟩) {node : DraftNode}
    (isSort : sort node.particle)
    (emptied : node.isFrozen = true → node.pending = [])
    (inside : ∀ child ∈ node.children, child < bench.size)
    (apart : ∀ child ∈ node.children, child ∉ held) :
    Sound sort ⟨(bench.put node).2, bench.size :: held⟩ := by
  have oldShows : ∀ id < bench.size, ∃ model,
      (bench.put node).2.Shows id model := by
    intro id isInside
    obtain ⟨model, shows⟩ := sound.shows id isInside
    exact ⟨model, (bench.extends_put node).shows shows⟩
  constructor
  · intro id other found
    cases Workbench.eq_or_of_put found with
    | inl isNew =>
        rw [isNew.2]
        exact isSort
    | inr isOld =>
        exact sound.each id other isOld
  · intro id isInside
    rw [Workbench.size_put] at isInside
    cases Nat.lt_succ_iff_lt_or_eq.mp isInside with
    | inl less =>
        exact oldShows id less
    | inr same =>
        have isNew : (bench.put node).2.nodes[id]? = some node := by
          rw [Workbench.getElem?_put, if_pos same]
        exact Workbench.exists_shows isNew fun child isChild =>
          oldShows child (inside child isChild)
  · intro id other found
    cases Workbench.eq_or_of_put found with
    | inl isNew =>
        rw [isNew.2]
        exact emptied
    | inr isOld =>
        exact sound.emptied id other isOld
  · intro id isHeld
    rw [Workbench.size_put]
    cases List.mem_cons.mp isHeld with
    | inl same =>
        rw [same]
        exact Nat.lt_succ_self _
    | inr wasHeld =>
        exact Nat.lt_succ_of_lt (sound.held_lt id wasHeld)
  · refine List.nodup_cons.mpr ⟨?_, sound.nodup⟩
    intro wasHeld
    exact Nat.lt_irrefl _ (sound.held_lt _ wasHeld)
  · intro id other found child isChild
    have isApart : child < bench.size ∧ child ∉ held := by
      cases Workbench.eq_or_of_put found with
      | inl isNew =>
          rw [isNew.2] at isChild
          exact ⟨inside child isChild, apart child isChild⟩
      | inr isOld =>
          exact ⟨sound.child_lt isOld isChild,
            sound.apart id other isOld child isChild⟩
    rw [List.mem_cons, not_or]
    exact ⟨isApart.1.ne, isApart.2⟩

/-- Readings leave what is known of the nodes. -/
theorem settle (sound : drafting.Sound sort) {looked : Nat → Prop}
    {bench : Workbench} (settles : drafting.bench.Settles looked bench) :
    Sound sort ⟨bench, drafting.held⟩ := by
  constructor
  · intro id later isLater
    obtain ⟨node, found, same, _⟩ := settles.kept_back id later isLater
    rw [← same]
    exact sound.each id node found
  · intro id inside
    rw [settles.size_eq] at inside
    obtain ⟨model, shows⟩ := sound.shows id inside
    exact ⟨model, settles.alike.shows shows⟩
  · intro id later isLater isFrozen
    by_cases isLooked : looked id
    · rw [settles.read id isLooked, Option.map_eq_some_iff] at isLater
      obtain ⟨node, found, same⟩ := isLater
      rw [← same]
      exact node.pending_freeze (sound.emptied id node found)
    · rw [settles.other id isLooked] at isLater
      exact sound.emptied id later isLater isFrozen
  · intro id isHeld
    rw [settles.size_eq]
    exact sound.held_lt id isHeld
  · exact sound.nodup
  · intro id later isLater child isChild
    obtain ⟨node, found, _, same⟩ := settles.kept_back id later isLater
    rw [← same] at isChild
    exact sound.apart id node found child isChild

/-- Of the other nodes none stands above a node at hand, so these show what they
showed when it is changed. -/
theorem shows_change (sound : drafting.Sound sort) (isHeld : id ∈ drafting.held)
    (update : DraftNode → DraftNode) {other : Nat} (different : other ≠ id)
    (inside : other < drafting.bench.size) :
    ∃ model, (drafting.bench.change id update).Shows other model := by
  obtain ⟨model, shows⟩ := sound.shows other inside
  have isStaying : other ∈ {other | other ≠ id} := different
  refine ⟨model, shows.frame isStaying ?_ ?_⟩
  · intro other different node found
    exact ⟨node, (Workbench.getElem?_change_of_ne different).trans found,
      rfl, rfl⟩
  · intro other _ node found child isChild same
    exact sound.apart other node found child isChild (same ▸ isHeld)

/-- A node at hand is changed and gets further nodes as children, which are put
out of hand. -/
theorem change (sound : drafting.Sound sort) (isHeld : id ∈ drafting.held)
    {node : DraftNode} (found : drafting.bench.nodes[id]? = some node)
    {update : DraftNode → DraftNode} (isSort : sort (update node).particle)
    (extra : List Nat) {held : List Nat}
    (isChildren : (update node).children = node.children ++ extra)
    (emptied : (update node).isFrozen = true → (update node).pending = [])
    (wereHeld : ∀ child ∈ extra, child ∈ drafting.held ∧ child ≠ id)
    (subset : held ⊆ drafting.held) (nodup : held.Nodup)
    (apart : ∀ child ∈ extra, child ∉ held) :
    Sound sort ⟨drafting.bench.change id update, held⟩ := by
  have isChanged : (drafting.bench.change id update).nodes[id]? =
      some (update node) :=
    Workbench.getElem?_change_self found
  -- The children that there were are not at hand; the others were, and are put
  -- out of hand.
  have child_apart : ∀ child ∈ (update node).children,
      child ≠ id ∧ child < drafting.bench.size ∧ child ∉ held := by
    intro child isChild
    rw [isChildren, List.mem_append] at isChild
    cases isChild with
    | inl wasChild =>
        have notHeld := sound.apart id node found child wasChild
        exact ⟨fun same => notHeld (same ▸ isHeld),
          sound.child_lt found wasChild, fun isHeld => notHeld (subset isHeld)⟩
    | inr isExtra =>
        obtain ⟨wasHeld, different⟩ := wereHeld child isExtra
        exact ⟨different, sound.held_lt child wasHeld, apart child isExtra⟩
  constructor
  · intro other later isLater
    cases Workbench.eq_or_of_change found isLater with
    | inl changed =>
        rw [changed.2]
        exact isSort
    | inr unchanged =>
        exact sound.each other later unchanged
  · intro other inside
    rw [Workbench.size_change] at inside
    by_cases same : other = id
    · rw [same]
      refine Workbench.exists_shows isChanged fun child isChild => ?_
      obtain ⟨different, isInside, _⟩ := child_apart child isChild
      exact sound.shows_change isHeld update different isInside
    · exact sound.shows_change isHeld update same inside
  · intro other later isLater
    cases Workbench.eq_or_of_change found isLater with
    | inl changed =>
        rw [changed.2]
        exact emptied
    | inr unchanged =>
        exact sound.emptied other later unchanged
  · intro other isHeld
    rw [Workbench.size_change]
    exact sound.held_lt other (subset isHeld)
  · exact nodup
  · intro other later isLater child isChild
    cases Workbench.eq_or_of_change found isLater with
    | inl changed =>
        rw [changed.2] at isChild
        exact (child_apart child isChild).2.2
    | inr unchanged =>
        intro isHeld
        exact sound.apart other later unchanged child isChild (subset isHeld)

/-- A node at hand is given another particle. -/
theorem setParticle (sound : drafting.Sound sort)
    (isHeld : id ∈ drafting.held) (update : Particle → Particle)
    (keeps : sort (drafting.bench.node id).particle →
      sort (update (drafting.bench.node id).particle)) :
    Sound sort ⟨drafting.bench.change id fun node =>
      { node with particle := update node.particle }, drafting.held⟩ := by
  obtain ⟨node, found⟩ := Workbench.exists_node (sound.held_lt id isHeld)
  rw [Workbench.node_eq found] at keeps
  exact sound.change isHeld found (keeps (sound.each id node found)) []
    (List.append_nil _).symm (sound.emptied id node found) (by simp)
    (List.Subset.refl _) sound.nodup (by simp)

mutual

theorem place : ∀ {model : Model} {bench : Workbench} {held : List Nat},
    model.Throughout sort → Sound sort ⟨bench, held⟩ →
      Sound sort ⟨(bench.place model).2, (bench.place model).1 :: held⟩
  | .node particle children, bench, held, throughout, sound => by
    obtain ⟨own, below⟩ := throughout
    -- The members are at hand until the node is put above them.
    have members := placeAll below sound
    obtain ⟨_, nodup, apart⟩ := List.nodup_append.mp members.nodup
    have sound := members.fewer (List.subset_append_right _ held) nodup
    rw [Workbench.place_node]
    refine sound.put own
      (fun impossible => absurd impossible Bool.false_ne_true) ?_ ?_
    · intro child isChild
      exact members.held_lt child (List.mem_append_left held isChild)
    · intro child isChild isHeld
      exact apart child isChild child isHeld rfl

theorem placeAll : ∀ {models : List Model} {bench : Workbench}
    {held : List Nat}, (∀ model ∈ models, model.Throughout sort) →
      Sound sort ⟨bench, held⟩ →
      Sound sort ⟨(bench.placeAll models).2, (bench.placeAll models).1 ++ held⟩
  | [], bench, held, _, sound => by
    rw [Workbench.placeAll]
    exact sound
  | model :: models, bench, held, each, sound => by
    obtain ⟨first, others⟩ := List.forall_mem_cons.mp each
    have sound := placeAll others (place first sound)
    rw [Workbench.placeAll_cons]
    have same : List.Perm
        ((bench.place model).1 ::
          (Workbench.placeAll models (bench.place model).2).1 ++ held)
        ((Workbench.placeAll models (bench.place model).2).1 ++
          (bench.place model).1 :: held) :=
      List.perm_middle.symm
    exact sound.fewer same.subset (same.nodup_iff.mpr sound.nodup)

end

theorem addChild (sound : drafting.Sound sort) {parent child : Nat}
    (parentHeld : parent ∈ drafting.held) (childHeld : child ∈ drafting.held)
    (different : parent ≠ child) {bench : Workbench}
    (isAfter : drafting.bench.addChild parent child = .ok bench) :
    Sound sort ⟨bench, drafting.held.erase child⟩ := by
  obtain ⟨node, found⟩ := Workbench.exists_node
    (sound.held_lt parent parentHeld)
  obtain ⟨_, isOpen, same⟩ := Workbench.eq_of_addChild found isAfter
  rw [same]
  refine sound.change parentHeld found (sound.each parent node found) [child]
    ?_ ?_ ?_ List.erase_subset (sound.nodup.erase child) ?_
  · rw [DraftNode.children, DraftNode.children, isOpen]
  · intro isFrozen
    rw [DraftNode.isFrozen, isOpen] at isFrozen
    exact absurd isFrozen Bool.false_ne_true
  · rw [List.forall_mem_singleton]
    exact ⟨childHeld, different.symm⟩
  · rw [List.forall_mem_singleton]
    exact sound.nodup.not_mem_erase

theorem leave (sound : drafting.Sound sort) {reading : Reading}
    {answer : Answer} {bench : Workbench}
    (leaves : reading.Leaves drafting.bench id answer bench) :
    Sound sort ⟨bench, answer.copies ++ drafting.held⟩ := by
  cases leaves with
  | plain noCopies settles =>
      rw [noCopies]
      exact sound.settle settles
  | @copy node settled found settles =>
      have isSort := sound.each id node found
      have sound := sound.settle settles
      obtain ⟨later, isLater, _, same⟩ := settles.kept id node found
      rw [Answer.copies, ← settles.size_eq]
      refine sound.put isSort (fun _ => rfl) ?_ ?_
      · intro child isChild
        exact sound.child_lt isLater (same ▸ isChild)
      · intro child isChild
        exact sound.apart id later isLater child (same ▸ isChild)

/-- A node shows a model whose particles are of the sort. -/
theorem exists_model (sound : drafting.Sound sort)
    (inside : id < drafting.bench.size) :
    ∃ model, drafting.bench.Shows id model ∧ model.Throughout sort := by
  obtain ⟨model, shows⟩ := sound.shows id inside
  exact ⟨model, shows, shows.throughout sound.each⟩

/-- A reading succeeds. It gives the answer for the model that the node
shows. -/
theorem exists_read (sound : drafting.Sound sort)
    (ordered : ∀ particle, sort particle → particle.occurs.Ordered)
    (inside : id < drafting.bench.size) {reading : Reading}
    (fits : reading.Fits) :
    ∃ model answer after, drafting.bench.Shows id model ∧
      reading.answer drafting.bench id model = .ok answer ∧
      Look.read id reading drafting.bench = .ok (answer, after) ∧
      reading.Leaves drafting.bench id answer after := by
  obtain ⟨model, shows, throughout⟩ := sound.exists_model inside
  have boundsOrdered := (throughout.mono ordered).boundsOrdered
  obtain ⟨answer, isAnswer⟩ :=
    Reading.exists_answer fits boundsOrdered drafting.bench id
  obtain ⟨after, isRead, leaves⟩ := Look.read_eq shows isAnswer
  exact ⟨model, answer, after, shows, isAnswer, isRead, leaves⟩

theorem act (sound : before.Sound sort)
    (ordered : ∀ particle, sort particle → particle.occurs.Ordered)
    {action : Action} (keeps : action.Keeps sort before.bench)
    (acts : Acts before action after) : after.Sound sort := by
  cases acts with
  | place boundsOrdered =>
      exact sound.place keeps
  | setKind kind isHeld =>
      exact sound.setParticle isHeld (fun particle => { particle with kind })
        keeps
  | setOccurs isHeld isAfter =>
      obtain ⟨occurs, isOrdered, same⟩ := Workbench.eq_of_setOccurs isAfter
      rw [same]
      exact sound.setParticle isHeld
        (fun particle => { particle with occurs }) (keeps occurs isOrdered)
  | @setLeaf id atom bench isHeld isAfter =>
      rw [Workbench.eq_of_setLeaf isAfter]
      exact sound.setParticle isHeld
        (fun particle => { particle with kind := .leaf, atom := some atom })
        keeps
  | addChild parentHeld childHeld different isAfter =>
      exact sound.addChild parentHeld childHeld different isAfter
  | @read id reading answer bench inside fits isRead =>
      obtain ⟨model, other, after, _, _, isOther, leaves⟩ :=
        sound.exists_read ordered inside fits
      rw [isRead] at isOther
      cases isOther
      exact sound.leave leaves

end Sound

theorem Acts.keeps_ordered {action : Action} (acts : Acts before action after) :
    action.Keeps (·.occurs.Ordered) before.bench := by
  cases acts with
  | place ordered => exact ordered.throughout
  | setKind _ _ => exact id
  | setOccurs _ _ => exact fun _ ordered _ => ordered
  | setLeaf _ _ => exact id
  | addChild _ _ _ _ => exact trivial
  | read _ _ _ => exact trivial

namespace Attained

variable {allowed : Drafting → Action → Prop}

/-- If the calls that are allowed keep particles of a sort, all are of it. -/
theorem sound_of_keeps (attained : drafting.Attained allowed)
    (ordered : ∀ particle, sort particle → particle.occurs.Ordered)
    (keeps : ∀ before action after, allowed before action →
      Acts before action after → action.Keeps sort before.bench) :
    drafting.Sound sort := by
  induction attained with
  | new =>
      exact sound_new
  | act _ isAllowed acts inductionHypothesis =>
      exact inductionHypothesis.act ordered (keeps _ _ _ isAllowed acts) acts

theorem sound (attained : drafting.Attained allowed) :
    drafting.Sound (·.occurs.Ordered) :=
  attained.sound_of_keeps (fun _ ordered => ordered)
    fun _ _ _ _ acts => acts.keeps_ordered

end Attained

end Drafting

end ContentModel
