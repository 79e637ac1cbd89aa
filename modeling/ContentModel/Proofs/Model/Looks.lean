import ContentModel.Proofs.Model.Shown

/-!
# What readings look at

A reading goes down from a node and reads the children of some of the nodes that
it passes. Which ones depends on the reading: those of groups, those of groups
up to the first incomplete member, or those of all particles without an atom.
The answer and what is read come from one traversal, and a reading leaves every
node with the particle and the children that it had. Main statement:
`Look.Follows`, for each of the traversals.
-/

namespace ContentModel

namespace Workbench

/-- Whoever reads the nodes cannot tell the benches apart. -/
def Alike (before after : Workbench) : Prop :=
  (∀ id, Kept before after id) ∧ ∀ id, Kept after before id

/-- The nodes that were looked at are read, and the others are as they were. -/
structure Settles (before : Workbench) (looked : Nat → Prop)
    (after : Workbench) : Prop where
  read : ∀ id, looked id →
    after.nodes[id]? = before.nodes[id]?.map DraftNode.freeze
  other : ∀ id, ¬ looked id → after.nodes[id]? = before.nodes[id]?

variable {bench before between after : Workbench} {id : Nat} {model : Model}
  {looked more : Nat → Prop}

theorem Alike.symm (alike : Alike before after) : Alike after before :=
  ⟨alike.2, alike.1⟩

theorem Alike.shows (alike : Alike before after)
    (shows : before.Shows id model) : after.Shows id model :=
  shows.frame (Set.mem_univ id) (fun id _ => alike.1 id)
    fun _ _ _ _ child _ => Set.mem_univ child

namespace Settles

theorem refl (bench : Workbench) : bench.Settles (fun _ => False) bench where
  read _ impossible := impossible.elim
  other _ _ := rfl

theorem congr (settles : before.Settles looked after)
    (same : ∀ id, looked id ↔ more id) : before.Settles more after where
  read id isLooked := settles.read id ((same id).mpr isLooked)
  other id notLooked :=
    settles.other id fun isLooked => notLooked ((same id).mp isLooked)

theorem trans (first : before.Settles looked between)
    (second : between.Settles more after) :
    before.Settles (fun id => looked id ∨ more id) after := by
  constructor
  · intro id isLooked
    by_cases later : more id
    · rw [second.read id later]
      by_cases earlier : looked id
      · rw [first.read id earlier]
        simp [Function.comp_def]
      · rw [first.other id earlier]
    · rw [second.other id later, first.read id (isLooked.resolve_right later)]
  · intro id notLooked
    rw [not_or] at notLooked
    rw [second.other id notLooked.2, first.other id notLooked.1]

theorem kept (settles : before.Settles looked after) (id : Nat) :
    Kept before after id := by
  intro node found
  by_cases isLooked : looked id
  · refine ⟨node.freeze, ?_, node.particle_freeze, node.children_freeze⟩
    rw [settles.read id isLooked, found]
    rfl
  · exact ⟨node, (settles.other id isLooked).trans found, rfl, rfl⟩

theorem kept_back (settles : before.Settles looked after) (id : Nat) :
    Kept after before id := by
  intro later isLater
  by_cases isLooked : looked id
  · rw [settles.read id isLooked, Option.map_eq_some_iff] at isLater
    obtain ⟨node, found, same⟩ := isLater
    rw [← same]
    exact ⟨node, found, node.particle_freeze.symm, node.children_freeze.symm⟩
  · exact ⟨later, (settles.other id isLooked).symm.trans isLater, rfl, rfl⟩

theorem alike (settles : before.Settles looked after) : Alike before after :=
  ⟨settles.kept, settles.kept_back⟩

theorem isSome_eq (settles : before.Settles looked after) (id : Nat) :
    after.nodes[id]?.isSome = before.nodes[id]?.isSome := by
  by_cases isLooked : looked id
  · rw [settles.read id isLooked, Option.isSome_map]
  · rw [settles.other id isLooked]

theorem size_eq (settles : before.Settles looked after) :
    after.size = before.size := by
  have lt_iff : ∀ id, id < after.size ↔ id < before.size := by
    intro id
    have same := settles.isSome_eq id
    rwa [Bool.eq_iff_iff, isSome_getElem?, isSome_getElem?] at same
  exact Nat.le_antisymm
    (Nat.le_of_not_lt fun less => Nat.lt_irrefl _ ((lt_iff _).mp less))
    (Nat.le_of_not_lt fun less => Nat.lt_irrefl _ ((lt_iff _).mpr less))

end Settles

/-! ## One node -/

theorem node_eq {node : DraftNode} (found : bench.nodes[id]? = some node) :
    bench.node id = node := by
  rw [Workbench.node, found]
  rfl

theorem getElem?_change (bench : Workbench) (id other : Nat)
    (update : DraftNode → DraftNode) :
    (bench.change id update).nodes[other]? =
      if id = other then bench.nodes[other]?.map update
      else bench.nodes[other]? :=
  Array.getElem?_modify

theorem settles_change (bench : Workbench) (id : Nat) :
    bench.Settles (· = id) (bench.change id DraftNode.freeze) := by
  constructor
  · intro other same
    rw [getElem?_change, if_pos same.symm]
  · intro other different
    rw [getElem?_change, if_neg fun same => different same.symm]

end Workbench

/-! ## Ways through the nodes -/

/-- A way from each node to its children from the left. -/
structure Walk where
  /-- The children of such a node are read. -/
  enters : Particle → Bool
  /-- After such a member the next one is looked at too. -/
  passes : Model → Bool

namespace Walk

/-- Through all groups, down to the first node that is none. -/
def groups : Walk where
  enters particle := particle.kind == .choice || particle.kind == .sequence
  passes _ := true

/-- Through the groups, up to the first incomplete member. -/
def completeness : Walk where
  enters particle := particle.kind == .choice || particle.kind == .sequence
  passes model := model.isComplete

/-- Down to the first nodes that hold atoms. -/
def atoms : Walk where
  enters particle := particle.atom.isNone
  passes _ := true

/-- The walk goes on after the node. -/
def Passes (walk : Walk) (bench : Workbench) (id : Nat) : Prop :=
  ∀ model, bench.Shows id model → walk.passes model = true

/-- The walk from the first node reads the children of the second one. -/
inductive Looks (walk : Walk) (bench : Workbench) : Nat → Nat → Prop
  | here {id : Nat} {node : DraftNode} :
      bench.nodes[id]? = some node → walk.enters node.particle = true →
      Looks walk bench id id
  | deeper {id child looked : Nat} {node : DraftNode}
      {earlier rest : List Nat} :
      bench.nodes[id]? = some node → walk.enters node.particle = true →
      node.children = earlier ++ child :: rest →
      (∀ id ∈ earlier, walk.Passes bench id) →
      Looks walk bench child looked → Looks walk bench id looked

/-- The walk through the nodes of a list reads the children of this one. -/
def Below (walk : Walk) (bench : Workbench) (ids : List Nat) (looked : Nat) :
    Prop :=
  ∃ earlier child rest, ids = earlier ++ child :: rest ∧
    (∀ id ∈ earlier, walk.Passes bench id) ∧ walk.Looks bench child looked

variable {walk : Walk} {bench before after : Workbench} {id : Nat}
  {model : Model}

theorem below_nil (looked : Nat) : ¬ walk.Below bench [] looked := by
  intro isBelow
  obtain ⟨earlier, child, rest, isNil, _⟩ := isBelow
  exact List.append_ne_nil_of_right_ne_nil _ (List.cons_ne_nil _ _) isNil.symm

theorem below_cons_iff (ids : List Nat) (looked : Nat) :
    walk.Below bench (id :: ids) looked ↔
      walk.Looks bench id looked ∨
        (walk.Passes bench id ∧ walk.Below bench ids looked) := by
  constructor
  · intro isBelow
    obtain ⟨earlier, child, rest, isIds, allPass, looks⟩ := isBelow
    cases earlier with
    | nil =>
        cases isIds
        exact Or.inl looks
    | cons first earlier =>
        cases isIds
        obtain ⟨passes, allPass⟩ := List.forall_mem_cons.mp allPass
        exact Or.inr ⟨passes, earlier, child, rest, rfl, allPass, looks⟩
  · intro isBelow
    cases isBelow with
    | inl looks =>
        exact ⟨[], id, ids, rfl, by simp, looks⟩
    | inr later =>
        obtain ⟨passes, earlier, child, rest, isIds, allPass, looks⟩ := later
        refine ⟨id :: earlier, child, rest, ?_, ?_, looks⟩
        · rw [isIds, List.cons_append]
        · exact List.forall_mem_cons.mpr ⟨passes, allPass⟩

theorem passes_of_shows (shows : bench.Shows id model)
    (passes : walk.passes model = true) : walk.Passes bench id := by
  intro other showsOther
  rw [← shows.unique showsOther]
  exact passes

theorem looks_iff {node : DraftNode} (found : bench.nodes[id]? = some node)
    (looked : Nat) :
    walk.Looks bench id looked ↔ walk.enters node.particle = true ∧
      (looked = id ∨ walk.Below bench node.children looked) := by
  constructor
  · intro looks
    cases looks with
    | here isNode enters =>
        rw [found] at isNode
        cases isNode
        exact ⟨enters, Or.inl rfl⟩
    | deeper isNode enters isChildren allPass looks =>
        rw [found] at isNode
        cases isNode
        exact ⟨enters, Or.inr ⟨_, _, _, isChildren, allPass, looks⟩⟩
  · intro looks
    obtain ⟨enters, place⟩ := looks
    cases place with
    | inl same =>
        rw [same]
        exact .here found enters
    | inr isBelow =>
        obtain ⟨earlier, child, rest, isChildren, allPass, looks⟩ := isBelow
        exact .deeper found enters isChildren allPass looks

theorem Passes.alike (passes : walk.Passes before id)
    (alike : before.Alike after) : walk.Passes after id :=
  fun model shows => passes model (alike.symm.shows shows)

theorem Looks.alike {looked : Nat} (looks : walk.Looks before id looked)
    (alike : before.Alike after) : walk.Looks after id looked := by
  induction looks with
  | @here id node found enters =>
      obtain ⟨later, isLater, same, _⟩ := alike.1 id node found
      rw [← same] at enters
      exact .here isLater enters
  | @deeper id child looked node earlier rest found enters isChildren allPass
      _ inductionHypothesis =>
      obtain ⟨later, isLater, same, sameChildren⟩ := alike.1 id node found
      rw [← same] at enters
      rw [← sameChildren] at isChildren
      exact .deeper isLater enters isChildren
        (fun id isEarlier => (allPass id isEarlier).alike alike)
        inductionHypothesis

theorem Below.alike {ids : List Nat} {looked : Nat}
    (isBelow : walk.Below before ids looked) (alike : before.Alike after) :
    walk.Below after ids looked := by
  obtain ⟨earlier, child, rest, isIds, allPass, looks⟩ := isBelow
  exact ⟨earlier, child, rest, isIds,
    fun id isEarlier => (allPass id isEarlier).alike alike, looks.alike alike⟩

end Walk

namespace Workbench.Settles

variable {bench between after : Workbench} {walk : Walk} {id : Nat}
  {ids : List Nat} {model : Model}

/-- After a member the walk goes on to the others. -/
theorem cons (shows : bench.Shows id model)
    (passes : walk.passes model = true)
    (first : bench.Settles (walk.Looks bench id) between)
    (others : between.Settles (walk.Below between ids) after) :
    bench.Settles (walk.Below bench (id :: ids)) after := by
  refine (first.trans others).congr ?_
  intro looked
  rw [Walk.below_cons_iff]
  apply or_congr_right
  constructor
  · intro isBelow
    exact ⟨Walk.passes_of_shows shows passes, isBelow.alike first.alike.symm⟩
  · intro later
    exact later.2.alike first.alike

/-- The walk ends at a member. -/
theorem last (shows : bench.Shows id model)
    (stops : walk.passes model = false)
    (first : bench.Settles (walk.Looks bench id) after) :
    bench.Settles (walk.Below bench (id :: ids)) after := by
  refine first.congr ?_
  intro looked
  rw [Walk.below_cons_iff]
  refine (or_iff_left ?_).symm
  intro later
  have passes := later.1 model shows
  rw [stops] at passes
  exact Bool.false_ne_true passes

theorem nil (bench : Workbench) : bench.Settles (walk.Below bench []) bench :=
  (refl bench).congr fun looked =>
    iff_of_false not_false (Walk.below_nil looked)

/-- Below a node whose children are read the walk goes through them. -/
theorem enter {node : DraftNode} (found : bench.nodes[id]? = some node)
    (enters : walk.enters node.particle = true)
    (below : (bench.change id DraftNode.freeze).Settles
      (walk.Below (bench.change id DraftNode.freeze) node.children) after) :
    bench.Settles (walk.Looks bench id) after := by
  have own := bench.settles_change id
  refine (own.trans below).congr ?_
  intro looked
  rw [Walk.looks_iff found, and_iff_right enters]
  apply or_congr_right
  constructor
  · intro isBelow
    exact isBelow.alike own.alike.symm
  · intro isBelow
    exact isBelow.alike own.alike

/-- A walk that reads no children leaves the nodes as they are. -/
theorem leave {node : DraftNode} (found : bench.nodes[id]? = some node)
    (leaves : walk.enters node.particle = false) :
    bench.Settles (walk.Looks bench id) bench := by
  refine (refl bench).congr fun looked => iff_of_false not_false ?_
  rw [Walk.looks_iff found, leaves]
  exact fun looks => Bool.false_ne_true looks.1

end Workbench.Settles

end ContentModel
