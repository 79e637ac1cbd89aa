import ContentModel.Fragment.OfModel
import ContentModel.Proofs.Fragment.Repetition

/-!
# Fragments of content models read what the models allow

The induction is over the model: each operator builds on fragments that are
placed one behind the other.
-/

namespace ContentModel

open FragmentGraph

namespace Model

/-- What a model becomes: a fragment of its language, or none if it allows
nothing but the empty sequence. -/
inductive Becomes (before : FragmentGraph) (language : Language String) :
    Except Fault (Option Fragment × FragmentGraph) → Prop
  | none :
      language = 1 →
      Becomes before language (.ok (none, before))
  | some {whole : Fragment} {after : FragmentGraph} :
      Placed True after [] before.size after.size whole language →
      Extends ∅ before after →
      Becomes before language (.ok (some whole, after))

private theorem becomes_of_builds {before middle : FragmentGraph}
    {changed : Set Nat} {language : Language String}
    {result : Except Fault (Fragment × FragmentGraph)}
    (builds : Builds True middle changed before.size language result)
    (grows : Extends ∅ before middle)
    (within : changed ⊆ Set.Ico before.size middle.size) :
    Becomes before language (result >>= fun (whole, graph) =>
      .ok (some whole, graph)) := by
  obtain ⟨whole, after, rfl, placed, further⟩ := builds
  refine Becomes.some placed ((grows.andThen further).mono ?_)
  intro id present isChanged
  exact absurd (within isChanged).1 (Nat.not_le_of_lt present)

/-- A body that fills the graph behind the points there were, as often as the
bounds say. -/
private theorem becomes_occurring {before middle : FragmentGraph}
    {changed : Set Nat} {language : Language String}
    {result : Except Fault (Fragment × FragmentGraph)} {occurs : Occurs}
    (ordered : occurs.Ordered)
    (builds : Builds True middle changed before.size language result)
    (grows : Extends ∅ before middle)
    (within : changed ⊆ Set.Ico before.size middle.size) :
    Becomes before (occurs.repeats language) (do
      let (body, graph) ← result
      let (whole, graph) ← graph.occurring body occurs
      .ok (some whole, graph)) := by
  obtain ⟨body, after, rfl, placed, further⟩ := builds
  refine becomes_of_builds (builds_occurring placed ordered) ?_
    (Set.Subset.refl _)
  apply (grows.andThen further).mono
  intro id present isChanged
  exact absurd (within isChanged).1 (Nat.not_le_of_lt present)

section Members

variable {members : List Model}

/-- The parts of a sequence one behind the other. Parts without a fragment
allow the empty sequence alone and are left out. -/
private theorem fragmentsOfParts_laid
    (each : ∀ member ∈ members, ∀ graph,
      Becomes graph member.language (member.fragment graph))
    (graph : FragmentGraph) :
    ∃ parts languages after,
      fragmentsOfParts members graph = .ok (parts, after) ∧
      Laid True after [] graph.size after.size parts languages ∧
      languages.prod = (members.map language).prod ∧
      Extends ∅ graph after ∧ (parts = [] → after = graph) := by
  induction members generalizing graph with
  | nil =>
      exact ⟨[], [], graph, rfl, Laid.nil (Nat.le_refl graph.size), rfl,
        Extends.refl ∅ graph, fun _ => rfl⟩
  | cons first rest inductionHypothesis =>
      have restEach := fun member isRest =>
        each member (List.mem_cons_of_mem first isRest)
      have firstBecomes := each first List.mem_cons_self graph
      rw [fragmentsOfParts]
      generalize first.fragment graph = result at firstBecomes
      cases firstBecomes with
      | none silent =>
          obtain ⟨parts, languages, after, isRest, laid, product, further,
            unchanged⟩ := inductionHypothesis restEach graph
          refine ⟨parts, languages, after, ?_, laid, ?_, further, unchanged⟩
          · simp only [ok_bind, isRest]
            rfl
          · rw [List.map_cons, List.prod_cons, silent, one_mul, product]
      | @some whole middle placed grows =>
          obtain ⟨parts, languages, after, isRest, laid, product, further,
            _⟩ := inductionHypothesis restEach middle
          refine ⟨whole :: parts, first.language :: languages, after, ?_, ?_,
            ?_, grows.andThen further, nofun⟩
          · simp only [ok_bind, isRest]
            rfl
          · exact Laid.cons
              (placed.extend further fun id _ => Set.notMem_empty id) laid
          · rw [List.map_cons, List.prod_cons, List.prod_cons, product]

/-- The branches of a choice one behind the other. Branches without a fragment
become one that reads nothing. -/
private theorem fragmentsOfBranches_laid
    (each : ∀ member ∈ members, ∀ graph,
      Becomes graph member.language (member.fragment graph))
    (graph : FragmentGraph) :
    ∃ branches after,
      fragmentsOfBranches members graph = .ok (branches, after) ∧
      Laid True after [] graph.size after.size branches
        (members.map language) ∧
      Extends ∅ graph after ∧ (branches = [] → after = graph) := by
  induction members generalizing graph with
  | nil =>
      exact ⟨[], graph, rfl, Laid.nil (Nat.le_refl graph.size),
        Extends.refl ∅ graph, fun _ => rfl⟩
  | cons first rest inductionHypothesis =>
      have restEach := fun member isRest =>
        each member (List.mem_cons_of_mem first isRest)
      have firstBecomes := each first List.mem_cons_self graph
      rw [fragmentsOfBranches]
      generalize first.fragment graph = result at firstBecomes
      cases firstBecomes with
      | none silent =>
          obtain ⟨whole, next, isNothing, placed, grows⟩ :=
            builds_nothing graph
          obtain ⟨branches, after, isRest, laid, further, _⟩ :=
            inductionHypothesis restEach next
          refine ⟨whole :: branches, after, ?_, ?_, grows.andThen further,
            nofun⟩
          · simp only [ok_bind, Except.ok.inj isNothing, isRest]
            rfl
          · rw [List.map_cons, silent]
            exact Laid.cons
              (placed.extend further fun id _ => Set.notMem_empty id) laid
      | @some whole middle placed grows =>
          obtain ⟨branches, after, isRest, laid, further, _⟩ :=
            inductionHypothesis restEach middle
          refine ⟨whole :: branches, after, ?_, ?_, grows.andThen further,
            nofun⟩
          · simp only [ok_bind, isRest]
            rfl
          · exact Laid.cons
              (placed.extend further fun id _ => Set.notMem_empty id) laid

end Members

theorem fragment_becomes {model : Model} (ordered : model.BoundsOrdered)
    (graph : FragmentGraph) :
    Becomes graph model.language (model.fragment graph) := by
  induction model using inductionOnMembers generalizing graph with
  | node particle children inductionHypothesis =>
      obtain ⟨occursOrdered, childrenOrdered⟩ := ordered
      have each := fun child member =>
        inductionHypothesis child member (childrenOrdered child member)
      obtain ⟨kind, occurs, atom⟩ := particle
      cases kind with
      | unknown =>
          exact Becomes.none rfl
      | leaf =>
          cases atom with
          | none =>
              exact Becomes.none rfl
          | some atom =>
              exact becomes_occurring occursOrdered (builds_leaf graph atom)
                (Extends.refl ∅ graph) (Set.empty_subset _)
      | sequence =>
          obtain ⟨parts, languages, after, isParts, laid, product, grows,
            unchanged⟩ := fragmentsOfParts_laid each graph
          rw [language_sequence occursOrdered, ← product]
          simp only [fragment, isParts, ok_bind]
          cases laid with
          | nil _ =>
              rw [unchanged rfl]
              exact Becomes.none (Occurs.repeats_one occursOrdered)
          | cons placed rest =>
              exact becomes_occurring occursOrdered
                (builds_sequence (Laid.cons placed rest)) grows
                (Set.Subset.refl _)
      | choice =>
          obtain ⟨branches, after, isBranches, laid, grows, unchanged⟩ :=
            fragmentsOfBranches_laid each graph
          rw [language_choice]
          simp only [fragment, isBranches, ok_bind]
          cases children with
          | nil =>
              cases laid with
              | nil _ =>
                  rw [unchanged rfl]
                  exact Becomes.none rfl
          | cons first others =>
              have built := builds_alternation laid
              cases laid with
              | cons placed rest =>
                  exact becomes_occurring occursOrdered
                    (built (List.cons_ne_nil _ _)) grows
                    (Set.Subset.refl _)

end Model

end ContentModel
