import ContentModel.Fragment.Graph
import Mathlib.Computability.Language
import Mathlib.Order.Interval.Set.Defs

/-!
# Passages through fragments

A passage through a fragment is a walk from a point to the exit. Its language
consists of the words that are read on a passage from the entry. A region is a
set of points that a passage does not leave before the exit. Some of them may
lead nowhere, unless the region is a thorough one.

Main statements: a passage depends on its region alone (`Region.extend`), and
a passage of a larger fragment that starts in the region of a smaller one
passes the exit of the smaller one on its way (`Region.passages_eq_mul`).
-/

namespace ContentModel.FragmentGraph

/-! ## Points as a walk sees them -/

/-- Where a walk may go on from a point; nowhere if there is no such point. -/
def successors (graph : FragmentGraph) (id : Nat) : List Nat :=
  match graph.points[id]? with
  | some point => point.successors
  | none => []

/-- The atom that is read at a point, if any. -/
def atomAt (graph : FragmentGraph) (id : Nat) : Option Atom :=
  graph.points[id]?.bind Point.atom

/-- What is read at a point: one name or nothing. -/
def reading (graph : FragmentGraph) (id : Nat) : List String :=
  ((graph.atomAt id).map Atom.name).toList

theorem point_eq_ok_iff
    (graph : FragmentGraph) (id : Nat) (point : Point) :
    graph.point id = .ok point ↔ graph.points[id]? = some point := by
  unfold FragmentGraph.point
  cases graph.points[id]? with
  | none => simp
  | some found => simp

theorem exists_point
    {graph : FragmentGraph} {id : Nat} (present : id < graph.size) :
    graph.point id = .ok ⟨graph.atomAt id, graph.successors id⟩ := by
  rw [point_eq_ok_iff]
  have found : graph.points[id]? = some graph.points[id] :=
    Array.getElem?_eq_getElem present
  simp only [atomAt, successors, found, Option.bind_some]

theorem successors_of_size_le
    {graph : FragmentGraph} {id : Nat} (missing : graph.size ≤ id) :
    graph.successors id = [] := by
  have notFound : graph.points[id]? = none := Array.getElem?_eq_none missing
  simp only [successors, notFound]

theorem lt_size_of_mem_successors
    {graph : FragmentGraph} {id next : Nat}
    (member : next ∈ graph.successors id) : id < graph.size := by
  by_contra missing
  rw [successors_of_size_le (Nat.le_of_not_lt missing)] at member
  exact List.not_mem_nil member

/-! ## Growing graphs -/

/-- Points are added behind the others, and of the points that were there
only those in `changed` get further successors. -/
structure Extends (changed : Set Nat) (before after : FragmentGraph) :
    Prop where
  size_le : before.size ≤ after.size
  atomAt : ∀ id < before.size, after.atomAt id = before.atomAt id
  successors : ∀ id < before.size, id ∉ changed →
    after.successors id = before.successors id

namespace Extends

variable {changed : Set Nat} {before middle after : FragmentGraph}

theorem refl (changed : Set Nat) (graph : FragmentGraph) :
    Extends changed graph graph where
  size_le := Nat.le_refl graph.size
  atomAt _ _ := rfl
  successors _ _ _ := rfl

theorem trans {further total : Set Nat}
    (first : Extends changed before middle)
    (second : Extends further middle after)
    (within : ∀ id < before.size, id ∈ changed ∨ id ∈ further → id ∈ total) :
    Extends total before after where
  size_le := Nat.le_trans first.size_le second.size_le
  atomAt id present := by
    rw [second.atomAt id (Nat.lt_of_lt_of_le present first.size_le),
      first.atomAt id present]
  successors id present kept := by
    rw [second.successors id (Nat.lt_of_lt_of_le present first.size_le),
      first.successors id present]
    · exact fun isChanged => kept (within id present (Or.inl isChanged))
    · exact fun isChanged => kept (within id present (Or.inr isChanged))

/-- What only adds points may come first. -/
theorem andThen (first : Extends ∅ before middle)
    (second : Extends changed middle after) :
    Extends changed before after :=
  first.trans second fun id _ isChanged =>
    isChanged.resolve_left (Set.notMem_empty id)

theorem mono {larger : Set Nat} (grows : Extends changed before after)
    (within : ∀ id < before.size, id ∈ changed → id ∈ larger) :
    Extends larger before after :=
  { grows with
    successors := fun id present kept =>
      grows.successors id present fun isChanged =>
        kept (within id present isChanged) }

theorem reading (grows : Extends changed before after) {id : Nat}
    (present : id < before.size) :
    after.reading id = before.reading id := by
  rw [FragmentGraph.reading, FragmentGraph.reading, grows.atomAt id present]

end Extends

/-! ## Passages -/

theorem mem_sum_map_iff {ι α : Type*} (languages : ι → Language α)
    (indices : List ι) (word : List α) :
    word ∈ (indices.map languages).sum ↔
      ∃ index ∈ indices, word ∈ languages index := by
  induction indices with
  | nil =>
      simp [Language.notMem_zero]
  | cons head tail inductionHypothesis =>
      simp [Language.mem_add, inductionHypothesis]

/-- A walk from a point until it has passed the exit reads this word. -/
inductive Passes (graph : FragmentGraph) (exit : Nat) :
    Nat → List String → Prop
  | leave :
      exit < graph.size →
      Passes graph exit exit (graph.reading exit)
  | step {id next : Nat} {word : List String} :
      id ≠ exit →
      next ∈ graph.successors id →
      Passes graph exit next word →
      Passes graph exit id (graph.reading id ++ word)

/-- The words that are read from a point on until the exit is passed. -/
def passages (graph : FragmentGraph) (exit id : Nat) : Language String :=
  { word | graph.Passes exit id word }

/-- The words that are read on the way through a fragment. -/
def language (graph : FragmentGraph) (fragment : Fragment) :
    Language String :=
  graph.passages fragment.exit fragment.entry

theorem mem_passages_iff
    (graph : FragmentGraph) (exit id : Nat) (word : List String) :
    word ∈ graph.passages exit id ↔ graph.Passes exit id word :=
  Iff.rfl

theorem passages_exit
    {graph : FragmentGraph} {exit : Nat} (present : exit < graph.size) :
    graph.passages exit exit = {graph.reading exit} := by
  ext word
  constructor
  · intro passes
    cases passes with
    | leave _ => rfl
    | step different _ _ => exact absurd rfl different
  · rintro rfl
    exact Passes.leave present

theorem mem_passages_of_ne
    {graph : FragmentGraph} {exit id : Nat} (different : id ≠ exit)
    (word : List String) :
    word ∈ graph.passages exit id ↔
      ∃ next ∈ graph.successors id, ∃ rest ∈ graph.passages exit next,
        graph.reading id ++ rest = word := by
  constructor
  · intro passes
    cases passes with
    | leave _ => exact absurd rfl different
    | step _ member rest => exact ⟨_, member, _, rest, rfl⟩
  · rintro ⟨next, member, rest, passes, rfl⟩
    exact Passes.step different member passes

/-- A point that reads nothing passes on what its successors read. -/
theorem passages_of_silent
    {graph : FragmentGraph} {exit id : Nat} (different : id ≠ exit)
    (silent : graph.reading id = []) :
    graph.passages exit id =
      ((graph.successors id).map (graph.passages exit)).sum := by
  ext word
  rw [mem_passages_of_ne different, silent, mem_sum_map_iff]
  constructor
  · rintro ⟨next, member, rest, passes, rfl⟩
    exact ⟨next, member, passes⟩
  · rintro ⟨next, member, passes⟩
    exact ⟨next, member, word, passes, rfl⟩

/-- Points that a passage through a fragment does not leave before the exit.
It comes from the entry to the exit, and from each of the points if the region
is a thorough one. -/
structure Region (thorough : Prop) (graph : FragmentGraph)
    (fragment : Fragment) (region : Set Nat) : Prop where
  entry_mem : fragment.entry ∈ region
  exit_mem : fragment.exit ∈ region
  present : ∀ id ∈ region, id < graph.size
  closed : ∀ id ∈ region, id ≠ fragment.exit →
    ∀ next ∈ graph.successors id, next ∈ region
  finishes : ∀ id ∈ region, thorough ∨ id = fragment.entry →
    ∃ word, graph.Passes fragment.exit id word

namespace Region

variable {thorough : Prop} {graph after : FragmentGraph}
  {fragment : Fragment} {region changed : Set Nat}

/-- From the entry the exit can be passed. -/
theorem passable (whole : Region thorough graph fragment region) :
    ∃ word, graph.Passes fragment.exit fragment.entry word :=
  whole.finishes fragment.entry whole.entry_mem (Or.inr rfl)

private theorem passes_extend
    (whole : Region thorough graph fragment region)
    (grows : Extends changed graph after)
    (apart : ∀ id ∈ region, id ∈ changed → id = fragment.exit)
    {id : Nat} (member : id ∈ region) {word : List String}
    (passes : graph.Passes fragment.exit id word) :
    after.Passes fragment.exit id word := by
  induction passes with
  | leave present =>
      rw [← grows.reading present]
      exact Passes.leave (Nat.lt_of_lt_of_le present grows.size_le)
  | @step id next word different isNext _ inductionHypothesis =>
      have present := whole.present id member
      rw [← grows.reading present]
      refine Passes.step different ?_
        (inductionHypothesis (whole.closed id member different next isNext))
      rw [grows.successors id present fun isChanged =>
        different (apart id member isChanged)]
      exact isNext

/-- Changes elsewhere and further successors of the exit leave a region and
its passages as they are. -/
theorem extend
    (whole : Region thorough graph fragment region)
    (grows : Extends changed graph after)
    (apart : ∀ id ∈ region, id ∈ changed → id = fragment.exit) :
    Region thorough after fragment region where
  entry_mem := whole.entry_mem
  exit_mem := whole.exit_mem
  present id member :=
    Nat.lt_of_lt_of_le (whole.present id member) grows.size_le
  closed id member different := by
    rw [grows.successors id (whole.present id member) fun isChanged =>
      different (apart id member isChanged)]
    exact whole.closed id member different
  finishes id member must := by
    obtain ⟨word, passes⟩ := whole.finishes id member must
    exact ⟨word, passes_extend whole grows apart member passes⟩

theorem passes_extend_iff
    (whole : Region thorough graph fragment region)
    (grows : Extends changed graph after)
    (apart : ∀ id ∈ region, id ∈ changed → id = fragment.exit)
    {id : Nat} (member : id ∈ region) (word : List String) :
    after.Passes fragment.exit id word ↔
      graph.Passes fragment.exit id word := by
  constructor
  · intro passes
    induction passes with
    | leave _ =>
        have present := whole.present _ whole.exit_mem
        rw [grows.reading present]
        exact Passes.leave present
    | @step id next word different isNext _ inductionHypothesis =>
        have present := whole.present id member
        rw [grows.successors id present fun isChanged =>
          different (apart id member isChanged)] at isNext
        rw [grows.reading present]
        exact Passes.step different isNext
          (inductionHypothesis (whole.closed id member different next isNext))
  · exact passes_extend whole grows apart member

theorem language_extend
    (whole : Region thorough graph fragment region)
    (grows : Extends changed graph after)
    (apart : ∀ id ∈ region, id ∈ changed → id = fragment.exit) :
    after.language fragment = graph.language fragment := by
  ext word
  exact whole.passes_extend_iff grows apart whole.entry_mem word

private theorem split_passes
    (whole : Region thorough graph fragment region) {exit : Nat}
    (outside : exit ∉ region) {id : Nat} (member : id ∈ region)
    {word : List String} (passes : graph.Passes exit id word) :
    ∃ first, graph.Passes fragment.exit id first ∧
      ∃ next ∈ graph.successors fragment.exit, ∃ rest,
        graph.Passes exit next rest ∧ first ++ rest = word := by
  induction passes with
  | leave _ =>
      exact absurd member outside
  | @step id next word different isNext passes inductionHypothesis =>
      by_cases atExit : id = fragment.exit
      · subst atExit
        have present := whole.present _ whole.exit_mem
        exact ⟨_, Passes.leave present, next, isNext, word, passes, rfl⟩
      · obtain ⟨first, inner, onward, isOnward, rest, outer, rfl⟩ :=
          inductionHypothesis (whole.closed id member atExit next isNext)
        exact ⟨_, Passes.step atExit isNext inner, onward, isOnward, rest,
          outer, List.append_assoc ..⟩

private theorem join_passes
    (whole : Region thorough graph fragment region) {exit : Nat}
    (outside : exit ∉ region) {id : Nat} (member : id ∈ region)
    {first rest : List String} {next : Nat}
    (inner : graph.Passes fragment.exit id first)
    (isNext : next ∈ graph.successors fragment.exit)
    (outer : graph.Passes exit next rest) :
    graph.Passes exit id (first ++ rest) := by
  induction inner with
  | leave _ =>
      have different : fragment.exit ≠ exit := fun same =>
        outside (same ▸ whole.exit_mem)
      exact Passes.step different isNext outer
  | @step id following word different isFollowing _ inductionHypothesis =>
      have notExit : id ≠ exit := fun same => outside (same ▸ member)
      rw [List.append_assoc]
      exact Passes.step notExit isFollowing <|
        inductionHypothesis
          (whole.closed id member different following isFollowing)

/-- On its way to an exit outside the region a passage passes the exit of the
region. -/
theorem mem_passages_iff
    (whole : Region thorough graph fragment region) {exit : Nat}
    (outside : exit ∉ region) {id : Nat} (member : id ∈ region)
    (word : List String) :
    word ∈ graph.passages exit id ↔
      ∃ first ∈ graph.passages fragment.exit id,
        ∃ next ∈ graph.successors fragment.exit,
          ∃ rest ∈ graph.passages exit next, first ++ rest = word := by
  constructor
  · exact split_passes whole outside member
  · rintro ⟨first, inner, next, isNext, rest, outer, rfl⟩
    exact join_passes whole outside member inner isNext outer

/-- If the exit of the region has one successor, a passage of the region is
followed by one from there. -/
theorem passages_eq_mul
    (whole : Region thorough graph fragment region) {exit : Nat}
    (outside : exit ∉ region) {next : Nat}
    (onward : graph.successors fragment.exit = [next])
    {id : Nat} (member : id ∈ region) :
    graph.passages exit id =
      graph.passages fragment.exit id * graph.passages exit next := by
  ext word
  rw [whole.mem_passages_iff outside member, onward, Language.mem_mul]
  constructor
  · rintro ⟨first, inner, other, isNext, rest, outer, joined⟩
    rw [List.mem_singleton.mp isNext] at outer
    exact ⟨first, inner, rest, outer, joined⟩
  · rintro ⟨first, inner, rest, outer, joined⟩
    exact ⟨first, inner, next, List.mem_singleton_self next, rest, outer,
      joined⟩

end Region

end ContentModel.FragmentGraph
