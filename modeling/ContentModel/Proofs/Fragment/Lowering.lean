import ContentModel.Proofs.Fragment.Inward
import ContentModel.Proofs.Fragment.OfModel

/-!
# Making the fragment of a model only adds points

Whatever a graph holds, making the fragment of a model leaves its points and
their edges as they are, and the new points lead to new points only. From
wherever a walk comes to in the fragment it can come to the exit. Main
statement: `fragment_appends`.
-/

namespace ContentModel

namespace FragmentGraph

/-- A walk may come from one point to another. -/
def LeadsTo (graph : FragmentGraph) : Nat → Nat → Prop :=
  Relation.ReflTransGen fun id next => next ∈ graph.successors id

variable {graph : FragmentGraph} {fragment : Fragment} {region : Set Nat}

theorem Passes.leadsTo {exit id : Nat} {word : List String}
    (passes : graph.Passes exit id word) : graph.LeadsTo id exit := by
  induction passes with
  | leave _ =>
      exact Relation.ReflTransGen.refl
  | step _ isNext _ inductionHypothesis =>
      exact Relation.ReflTransGen.head isNext inductionHypothesis

/-- An exit that leads nowhere keeps walks inside the region. -/
theorem Region.mem_of_leadsTo {thorough : Prop}
    (whole : Region thorough graph fragment region)
    (ends : graph.successors fragment.exit = []) {id : Nat}
    (comes : graph.LeadsTo fragment.entry id) : id ∈ region := by
  induction comes with
  | refl =>
      exact whole.entry_mem
  | @tail id next _ isNext inductionHypothesis =>
      refine whole.closed id inductionHypothesis ?_ next isNext
      rintro rfl
      rw [ends] at isNext
      exact List.not_mem_nil isNext

/-- Walks that enter a fragment can always come to its exit. -/
theorem Placed.leadsTo_exit {low high : Nat} {language : Language String}
    (placed : Placed True graph [] low high fragment language) {id : Nat}
    (comes : graph.LeadsTo fragment.entry id) :
    graph.LeadsTo id fragment.exit := by
  obtain ⟨region, _, whole⟩ := placed.region
  have member := whole.mem_of_leadsTo placed.onward comes
  obtain ⟨word, passes⟩ := whole.finishes id member (Or.inl trivial)
  exact passes.leadsTo

end FragmentGraph

namespace Model

open FragmentGraph

/-- A model that has no fragment: it is not filled in, or it is a group without
members that have one. A branch of a choice counts in any case. -/
inductive Vacant : Model → Prop
  | unknown {occurs : Occurs} {atom : Option Atom} {children : List Model} :
      Vacant (node ⟨.unknown, occurs, atom⟩ children)
  | leaf {occurs : Occurs} {children : List Model} :
      Vacant (node ⟨.leaf, occurs, none⟩ children)
  | choice {occurs : Occurs} {atom : Option Atom} :
      Vacant (node ⟨.choice, occurs, atom⟩ [])
  | sequence {occurs : Occurs} {atom : Option Atom} {children : List Model} :
      (∀ child ∈ children, Vacant child) →
      Vacant (node ⟨.sequence, occurs, atom⟩ children)

/-- How the result of making a fragment lies in the graph, seen from a point
behind which the graph was closed before. -/
structure Lowered (low : Nat) (before : FragmentGraph) (model : Model)
    (result : Option Fragment) (after : FragmentGraph) : Prop where
  inward : Inward low after
  size_le : before.size ≤ after.size
  enters : ∀ whole ∈ result, EntersFrom low after whole
  none_iff : result = none ↔ model.Vacant

/-- However a fragment of the model is made, it lies so. -/
def Lowers (model : Model) : Prop :=
  ∀ (low : Nat) (graph after : FragmentGraph) (result : Option Fragment),
    Inward low graph → model.fragment graph = .ok (result, after) →
    Lowered low graph model result after

variable {low : Nat} {graph after : FragmentGraph} {members : List Model}

private theorem parts_lowered {parts : List Fragment}
    (each : ∀ member ∈ members, Lowers member) (inward : Inward low graph)
    (isParts : fragmentsOfParts members graph = .ok (parts, after)) :
    Inward low after ∧ graph.size ≤ after.size ∧
      (∀ part ∈ parts, EntersFrom low after part) ∧
      (parts = [] ↔ ∀ member ∈ members, member.Vacant) := by
  induction members generalizing graph parts with
  | nil =>
      cases isParts
      refine ⟨inward, Nat.le_refl _, ?_, by simp⟩
      intro part member
      exact absurd member List.not_mem_nil
  | cons head tail inductionHypothesis =>
      obtain ⟨⟨first, middle⟩, isFirst, isParts⟩ := bind_eq_ok_iff.mp isParts
      obtain ⟨⟨rest, further⟩, isRest, same⟩ := bind_eq_ok_iff.mp isParts
      cases same
      have lowered := each head List.mem_cons_self low graph middle first
        inward isFirst
      obtain ⟨inwardAfter, size_le, enters, none_iff⟩ := inductionHypothesis
        (fun member isLater => each member (List.mem_cons_of_mem head isLater))
        lowered.inward isRest
      refine ⟨inwardAfter, Nat.le_trans lowered.size_le size_le, ?_, ?_⟩
      · intro part member
        rcases List.mem_append.mp member with isHead | later
        · exact (lowered.enters part (Option.mem_toList.mp isHead)).mono size_le
        · exact enters part later
      · rw [List.append_eq_nil_iff, List.forall_mem_cons, none_iff,
          ← lowered.none_iff, Option.toList_eq_nil_iff]

private theorem branches_lowered {branches : List Fragment}
    (each : ∀ member ∈ members, Lowers member) (inward : Inward low graph)
    (isBranches : fragmentsOfBranches members graph = .ok (branches, after)) :
    Inward low after ∧ graph.size ≤ after.size ∧
      (∀ branch ∈ branches, EntersFrom low after branch) ∧
      (branches = [] ↔ members = []) := by
  induction members generalizing graph branches with
  | nil =>
      cases isBranches
      refine ⟨inward, Nat.le_refl _, ?_, iff_of_true rfl rfl⟩
      intro branch member
      exact absurd member List.not_mem_nil
  | cons head tail inductionHypothesis =>
      obtain ⟨⟨first, middle⟩, isFirst, isBranches⟩ :=
        bind_eq_ok_iff.mp isBranches
      have lowered := each head List.mem_cons_self low graph middle first
        inward isFirst
      have later := fun member isLater =>
        each member (List.mem_cons_of_mem head isLater)
      cases first with
      | none =>
          obtain ⟨⟨rest, further⟩, isRest, same⟩ :=
            bind_eq_ok_iff.mp isBranches
          cases same
          obtain ⟨inwardAfter, size_le, enters, _⟩ := inductionHypothesis
            later (lowered.inward.addPoint none) isRest
          have grows := (grows_addPoint middle {}).size_le
          refine ⟨inwardAfter, ?_, ?_, by simp⟩
          · exact Nat.le_trans lowered.size_le (Nat.le_trans grows size_le)
          · refine List.forall_mem_cons.mpr ⟨?_, enters⟩
            exact (lowered.inward.entersFrom_single none).mono size_le
      | some whole =>
          obtain ⟨⟨rest, further⟩, isRest, same⟩ :=
            bind_eq_ok_iff.mp isBranches
          cases same
          obtain ⟨inwardAfter, size_le, enters, _⟩ :=
            inductionHypothesis later lowered.inward isRest
          refine ⟨inwardAfter, Nat.le_trans lowered.size_le size_le, ?_,
            by simp⟩
          refine List.forall_mem_cons.mpr ⟨?_, enters⟩
          exact (lowered.enters whole rfl).mono size_le

/-- A body that occurs as often as the bounds say. -/
private theorem occurring_lowered {middle : FragmentGraph} {model : Model}
    {body : Fragment} {occurs : Occurs} {result : Option Fragment}
    (inward : Inward low middle) (enters : EntersFrom low middle body)
    (size_le : graph.size ≤ middle.size) (occupied : ¬ model.Vacant)
    (isResult : (do
      let (whole, graph) ← middle.occurring body occurs
      return (some whole, graph)) = Except.ok (result, after)) :
    Lowered low graph model result after := by
  obtain ⟨⟨whole, further⟩, isWhole, same⟩ := bind_eq_ok_iff.mp isResult
  cases same
  obtain ⟨inwardAfter, entersWhole⟩ := inward.occurring enters isWhole
  constructor
  · exact inwardAfter
  · exact Nat.le_trans size_le (grows_of_occurring isWhole).size_le
  · intro other isOther
    cases isOther
    exact entersWhole
  · exact iff_of_false nofun occupied

/-- A model without a fragment. -/
private theorem vacant_lowered {model : Model} (inward : Inward low after)
    (size_le : graph.size ≤ after.size) (vacant : model.Vacant) :
    Lowered low graph model none after where
  inward := inward
  size_le := size_le
  enters := nofun
  none_iff := iff_of_true rfl vacant

/-- The induction is on the model, for every graph: the members are made one
after the other in graphs that grow. -/
theorem lowers (model : Model) : model.Lowers := by
  induction model using inductionOnMembers with
  | node particle children inductionHypothesis =>
      intro low graph after result inward isResult
      obtain ⟨kind, occurs, atom⟩ := particle
      cases kind with
      | unknown =>
          simp only [fragment] at isResult
          cases isResult
          exact vacant_lowered inward (Nat.le_refl _) Vacant.unknown
      | leaf =>
          cases atom with
          | none =>
              simp only [fragment] at isResult
              cases isResult
              exact vacant_lowered inward (Nat.le_refl _) Vacant.leaf
          | some atom =>
              simp only [fragment] at isResult
              refine occurring_lowered (inward.addPoint (some atom))
                (inward.entersFrom_single (some atom))
                (grows_addPoint graph { atom := some atom }).size_le ?_
                isResult
              intro vacant
              cases vacant
      | sequence =>
          simp only [fragment] at isResult
          obtain ⟨⟨parts, middle⟩, isParts, isResult⟩ :=
            bind_eq_ok_iff.mp isResult
          obtain ⟨inwardMiddle, size_le, enters, none_iff⟩ :=
            parts_lowered inductionHypothesis inward isParts
          split at isResult
          · rename_i isEmpty
            cases isResult
            refine vacant_lowered inwardMiddle size_le (Vacant.sequence ?_)
            exact none_iff.mp (List.isEmpty_iff.mp isEmpty)
          · rename_i notEmpty
            obtain ⟨⟨body, further⟩, isBody, isResult⟩ :=
              bind_eq_ok_iff.mp isResult
            obtain ⟨inwardBody, entersBody⟩ :=
              inwardMiddle.sequence enters isBody
            refine occurring_lowered inwardBody entersBody
              (Nat.le_trans size_le (grows_of_sequence isBody).size_le) ?_
              isResult
            intro vacant
            cases vacant with
            | sequence each =>
                exact notEmpty (List.isEmpty_iff.mpr (none_iff.mpr each))
      | choice =>
          simp only [fragment] at isResult
          obtain ⟨⟨branches, middle⟩, isBranches, isResult⟩ :=
            bind_eq_ok_iff.mp isResult
          obtain ⟨inwardMiddle, size_le, enters, none_iff⟩ :=
            branches_lowered inductionHypothesis inward isBranches
          split at isResult
          · rename_i isEmpty
            cases isResult
            rw [none_iff.mp (List.isEmpty_iff.mp isEmpty)]
            exact vacant_lowered inwardMiddle size_le Vacant.choice
          · rename_i notEmpty
            obtain ⟨⟨body, further⟩, isBody, isResult⟩ :=
              bind_eq_ok_iff.mp isResult
            obtain ⟨inwardBody, entersBody⟩ :=
              inwardMiddle.alternation enters isBody
            refine occurring_lowered inwardBody entersBody
              (Nat.le_trans size_le (grows_of_alternation isBody).size_le) ?_
              isResult
            intro vacant
            cases vacant with
            | choice =>
                exact notEmpty (List.isEmpty_iff.mpr (none_iff.mpr rfl))

/-- Making the fragment of a model does not fail. The points that were there are
kept with their edges, and every edge of a new point leads to a new point. A
fragment is entered and left at new points, leads nowhere yet, and from wherever
a walk comes to in it its exit can be reached. There is none exactly if the model
is not filled in or a group without members that count. -/
theorem fragment_appends {model : Model} (ordered : model.BoundsOrdered)
    (graph : FragmentGraph) :
    ∃ result after, model.fragment graph = .ok (result, after) ∧
      (∀ id < graph.size, after.point id = graph.point id) ∧
      (∀ id ∈ Set.Ico graph.size after.size, ∀ next ∈ after.successors id,
        next ∈ Set.Ico graph.size after.size) ∧
      (∀ whole, result = some whole →
        whole.entry ∈ Set.Ico graph.size after.size ∧
        whole.exit ∈ Set.Ico graph.size after.size ∧
        after.successors whole.exit = [] ∧
        ∀ id ∈ Set.Ico graph.size after.size,
          after.LeadsTo whole.entry id → after.LeadsTo id whole.exit) ∧
      (result = none ↔ model.Vacant) := by
  have becomes := fragment_becomes ordered graph
  have lowers := model.lowers
  generalize isResult : model.fragment graph = made at becomes
  cases becomes with
  | none =>
      have lowered := lowers _ _ _ _ (inward_size graph) isResult
      refine ⟨none, graph, rfl, fun _ _ => rfl, ?_, nofun, lowered.none_iff⟩
      intro id isNew
      exact lowered.inward.leads id isNew.1
  | @some whole after placed grows =>
      have lowered := lowers _ _ _ _ (inward_size graph) isResult
      refine ⟨some whole, after, rfl, ?_, ?_, ?_, lowered.none_iff⟩
      · intro id present
        rw [exists_point present,
          exists_point (Nat.lt_of_lt_of_le present grows.size_le),
          grows.atomAt id present,
          grows.successors id present (Set.notMem_empty id)]
      · intro id isNew
        exact lowered.inward.leads id isNew.1
      · intro other isWhole
        cases isWhole
        exact ⟨lowered.enters whole rfl, placed.exit_mem, placed.onward,
          fun id _ comes => placed.leadsTo_exit comes⟩

/-- A part that is made and left out, one that is copied although a branch of it
is not filled in, and one without a fragment. -/
def partsOfAllKinds : Model :=
  sequence [withOccurs ⟨0, some 0⟩ (leaf (.ofElement "a")),
    withOccurs ⟨2, some 3⟩ (choice [leaf (.ofElement "b"), unknown []]),
    sequence [unknown []]]

/-- A point that leads back to itself and on to another one. -/
def ownLoop : FragmentGraph :=
  ⟨#[{ atom := some (.ofElement "c"), successors := [0, 1] }, {}]⟩

theorem fragment_appends_partsOfAllKinds :
    partsOfAllKinds.BoundsOrdered ∧ ¬ partsOfAllKinds.Vacant ∧
    ∃ whole after,
      partsOfAllKinds.fragment ownLoop = .ok (some whole, after) ∧
      after.point 0 = ownLoop.point 0 ∧
      (∀ id ∈ Set.Ico 2 after.size, ∀ next ∈ after.successors id,
        next ∈ Set.Ico 2 after.size) ∧
      2 ≤ whole.entry ∧ 2 ≤ whole.exit ∧
      after.successors whole.exit = [] ∧
      ∀ id ∈ Set.Ico 2 after.size,
        after.LeadsTo whole.entry id → after.LeadsTo id whole.exit := by
  have ordered : partsOfAllKinds.BoundsOrdered := by
    decide
  have occupied : ¬ partsOfAllKinds.Vacant := by
    intro vacant
    cases vacant with
    | sequence each =>
        cases each _ List.mem_cons_self
  obtain ⟨result, after, isResult, kept, closed, lies, none_iff⟩ :=
    fragment_appends ordered ownLoop
  cases result with
  | none =>
      exact absurd (none_iff.mp rfl) occupied
  | some whole =>
      obtain ⟨entryNew, exitNew, ends, comes⟩ := lies whole rfl
      exact ⟨ordered, occupied, whole, after, isResult, kept 0 (by decide),
        closed, entryNew.1, exitNew.1, ends, comes⟩

end Model

end ContentModel
