import ContentModel.Proofs.Automaton.Agreement
import ContentModel.Proofs.Automaton.Twins
import ContentModel.Proofs.Automaton.Wirings
import ContentModel.Proofs.Fragment.Operation

/-!
# Fragments in a graph that is built further

The automaton of a fragment depends on the points that walks through it come to
and on nothing else. It stays the same when edges are added elsewhere or at the
exit, and a copy has the same one. Main statement: `compilesTo_rewired`.
-/

namespace ContentModel

namespace FragmentGraph

open Automaton (Store)

variable {thorough : Prop} {graph after : FragmentGraph} {fragment : Fragment}
  {region changed : Set Nat}

/-! ## The region of the points that walks come to -/

/-- A walk through the fragment comes to the exit, and it comes to points of the
graph only. -/
structure Passable (graph : FragmentGraph) (fragment : Fragment) : Prop where
  exit : graph.ComesTo fragment fragment.exit
  present : ∀ id, graph.ComesTo fragment id → id < graph.size

/-- Where no edge leaves the graph, it is enough to come to the exit. -/
theorem passable_of_forall
    (exit : graph.ComesTo fragment fragment.exit)
    (entry : fragment.entry < graph.size)
    (each : ∀ id < graph.size, ∀ next ∈ graph.successors id,
      next < graph.size) : graph.Passable fragment where
  exit := exit
  present := by
    intro id comes
    induction comes with
    | refl => exact entry
    | tail _ goesOn inductionHypothesis =>
        exact each _ inductionHypothesis _ goesOn.2

theorem Passable.exists_passes (passable : graph.Passable fragment) :
    ∃ word, graph.Passes fragment.exit fragment.entry word := by
  refine Relation.ReflTransGen.head_induction_on passable.exit
    (motive := fun id _ => ∃ word, graph.Passes fragment.exit id word) ?_ ?_
  · exact ⟨_, Passes.leave (passable.present _ passable.exit)⟩
  · intro id next goesOn _ passesNext
    obtain ⟨word, passes⟩ := passesNext
    exact ⟨_, Passes.step goesOn.1 goesOn.2 passes⟩

/-- Some of the points may lead nowhere. -/
theorem Passable.hasRegion (passable : graph.Passable fragment) :
    Region False graph fragment { id | graph.ComesTo fragment id } where
  entry_mem := Relation.ReflTransGen.refl
  exit_mem := passable.exit
  present := passable.present
  closed _ comes notExit _ isNext :=
    Relation.ReflTransGen.tail comes ⟨notExit, isNext⟩
  finishes := by
    intro id _ must
    rw [must.resolve_left False.elim]
    exact passable.exists_passes

/-- The points that are copied are those that walks come to. -/
theorem meets_iff_comesTo (graph : FragmentGraph) (fragment : Fragment)
    (id : Nat) : graph.Meets fragment id ↔ graph.ComesTo fragment id := by
  have sameSteps : Search.Leads (graph.inside fragment.exit) =
      fun id next => id ≠ fragment.exit ∧ next ∈ graph.successors id := by
    funext id next
    by_cases atExit : id = fragment.exit
    · simp [Search.Leads, inside, atExit]
    · simp [Search.Leads, inside, atExit]
  rw [Meets, Search.Reachable, sameSteps]
  simp only [List.mem_singleton, exists_eq_left]
  exact Iff.rfl

/-- The points that can be met are a region as well. -/
theorem Region.restrict (whole : Region thorough graph fragment region) :
    Region thorough graph fragment { id | graph.Meets fragment id } where
  entry_mem := meets_entry graph fragment
  exit_mem := by
    obtain ⟨word, passes⟩ := whole.passable
    exact (meets_entry graph fragment).exit_of_passes passes
  present id meets := whole.present id (whole.of_meets meets)
  closed _ meets notExit _ isNext := meets.next notExit isNext
  finishes id meets := whole.finishes id (whole.of_meets meets)

theorem Region.isPassable (whole : Region thorough graph fragment region) :
    graph.Passable fragment where
  exit := (meets_iff_comesTo graph fragment _).mp whole.restrict.exit_mem
  present id comes :=
    whole.restrict.present id ((meets_iff_comesTo graph fragment id).mpr comes)

/-! ## Edges elsewhere and at the exit -/

/-- No edges were added at the points that walks through the fragment come to,
the exit apart. -/
def Untouched (graph after : FragmentGraph) (fragment : Fragment) : Prop :=
  ∀ id, graph.ComesTo fragment id → id ≠ fragment.exit →
    after.successors id = graph.successors id

/-- Where edges may be added. -/
private def elsewhere (graph : FragmentGraph) (fragment : Fragment) :
    Set Nat :=
  { id | graph.ComesTo fragment id → id = fragment.exit }

private theorem Untouched.extends (untouched : Untouched graph after fragment)
    (grows : graph.Grows after) :
    Extends (graph.elsewhere fragment) graph after where
  size_le := grows.size_le
  atomAt := grows.atomAt
  successors id _ kept := by
    obtain ⟨comes, notExit⟩ := Classical.not_imp.mp kept
    exact untouched id comes notExit

/-! ## Renamed points -/

/-- The points of a region stand under other numbers in another graph, and
walks see the same there. -/
structure Renamed (left : FragmentGraph) (fragment : Fragment)
    (region : Set Nat) (rename : Nat → Nat) (right : FragmentGraph) :
    Prop where
  injective : Set.InjOn rename region
  present : ∀ id ∈ region, rename id < right.size
  atomAt : ∀ id ∈ region, right.atomAt (rename id) = left.atomAt id
  successors : ∀ id ∈ region, id ≠ fragment.exit →
    right.successors (rename id) = (left.successors id).map rename

namespace Renamed

variable {left right : FragmentGraph} {rename : Nat → Nat}

/-- A point and its number in the other graph; the mark stays the mark. -/
def Pairs (region : Set Nat) (rename : Nat → Nat) (id twin : Nat) :
    Prop :=
  (id = pastExit ∧ twin = pastExit) ∨ (id ∈ region ∧ twin = rename id)

variable (whole : Region thorough left fragment region)
  (renamed : Renamed left fragment region rename right)
  (leftNumbered : left.size ≤ pastExit)
  (rightNumbered : right.size ≤ pastExit)

include whole renamed leftNumbered rightNumbered

private theorem pairs_mark_iff {id twin : Nat}
    (paired : Pairs region rename id twin) :
    id = pastExit ↔ twin = pastExit := by
  obtain ⟨isMark, twinMark⟩ | ⟨member, rfl⟩ := paired
  · simp only [isMark, twinMark]
  · have isPoint := whole.ne_pastExit leftNumbered member
    have twinPresent := renamed.present id member
    have isTwinPoint : rename id ≠ pastExit :=
      Nat.ne_of_lt (Nat.lt_of_lt_of_le twinPresent rightNumbered)
    simp only [isPoint, isTwinPoint]

private theorem pairs_exit_iff {id twin : Nat}
    (paired : Pairs region rename id twin) :
    id = fragment.exit ↔ twin = rename fragment.exit := by
  have exitPaired : Pairs region rename fragment.exit (rename fragment.exit) :=
    Or.inr ⟨whole.exit_mem, rfl⟩
  obtain ⟨isMark, twinMark⟩ | ⟨member, rfl⟩ := paired
  · rw [isMark, twinMark, eq_comm, eq_comm (a := pastExit)]
    exact pairs_mark_iff whole renamed leftNumbered rightNumbered exitPaired
  · exact ⟨congrArg rename, renamed.injective member whole.exit_mem⟩

private theorem pairs_leftUnique :
    Relator.LeftUnique (Pairs region rename) := by
  intro id other twin first second
  have idMark :=
    pairs_mark_iff whole renamed leftNumbered rightNumbered first
  have otherMark :=
    pairs_mark_iff whole renamed leftNumbered rightNumbered second
  obtain ⟨isMark, twinMark⟩ | ⟨member, isTwin⟩ := first
  · rw [isMark, otherMark.mpr twinMark]
  · obtain ⟨isMark, twinMark⟩ | ⟨otherMember, same⟩ := second
    · rw [isMark, idMark.mpr twinMark]
    · exact renamed.injective member otherMember (isTwin.symm.trans same)

private theorem pairs_rightUnique :
    Relator.RightUnique (Pairs region rename) := by
  intro id twin other first second
  have twinMark :=
    pairs_mark_iff whole renamed leftNumbered rightNumbered first
  have otherMark :=
    pairs_mark_iff whole renamed leftNumbered rightNumbered second
  obtain ⟨isMark, isTwin⟩ | ⟨_, isTwin⟩ := first
  · rw [isTwin, otherMark.mp isMark]
  · obtain ⟨isMark, same⟩ | ⟨_, same⟩ := second
    · rw [same, twinMark.mp isMark]
    · rw [isTwin, same]

theorem twins :
    Twins left fragment.exit right (rename fragment.exit)
      (Pairs region rename) where
  mark := Or.inl ⟨rfl, rfl⟩
  leftUnique :=
    pairs_leftUnique whole renamed leftNumbered rightNumbered
  rightUnique :=
    pairs_rightUnique whole renamed leftNumbered rightNumbered
  exit_iff _ _ := pairs_exit_iff whole renamed leftNumbered rightNumbered
  atomAt := by
    intro id twin paired
    obtain ⟨rfl, rfl⟩ | ⟨member, rfl⟩ := paired
    · rw [atomAt_of_size_le leftNumbered, atomAt_of_size_le rightNumbered]
    · exact (renamed.atomAt id member).symm
  leads := by
    intro id twin paired isPoint notExit
    obtain ⟨isMark, _⟩ | ⟨member, rfl⟩ := paired
    · exact absurd isMark isPoint
    · have leads := whole.closed id member notExit
      rw [renamed.successors id member notExit]
      constructor
      · intro next isNext
        exact ⟨rename next, List.mem_map_of_mem isNext,
          Or.inr ⟨leads next isNext, rfl⟩⟩
      · intro twin isTwin
        obtain ⟨next, isNext, rfl⟩ := List.mem_map.mp isTwin
        exact ⟨next, isNext, Or.inr ⟨leads next isNext, rfl⟩⟩
  leftPresent _ _ paired :=
    paired.imp And.left fun isPoint => whole.present _ isPoint.1
  rightPresent := by
    intro id twin paired
    obtain ⟨_, isMark⟩ | ⟨member, rfl⟩ := paired
    · exact Or.inl isMark
    · exact Or.inr (renamed.present id member)
  leftNumbered := leftNumbered
  rightNumbered := rightNumbered

theorem stateCount_eq {other : Fragment}
    (isEntry : other.entry = rename fragment.entry)
    (isExit : other.exit = rename fragment.exit) :
    left.stateCount fragment = right.stateCount other := by
  have twins := twins whole renamed leftNumbered rightNumbered
  rw [← isExit] at twins
  exact twins.stateCount_eq (Or.inr ⟨whole.entry_mem, isEntry⟩)

end Renamed

/-! ## The region after edges were added, and its copies -/

theorem Region.stateCount_extend
    (whole : Region thorough graph fragment region)
    (grows : Extends changed graph after)
    (apart : ∀ id ∈ region, id ∈ changed → id = fragment.exit)
    (numbered : after.size ≤ pastExit) :
    graph.stateCount fragment = after.stateCount fragment := by
  have renamed : Renamed graph fragment region (fun id => id) after :=
    { injective := fun _ _ _ _ same => same
      present := fun id member =>
        Nat.lt_of_lt_of_le (whole.present id member) grows.size_le
      atomAt := fun id member => grows.atomAt id (whole.present id member)
      successors := fun id member notExit => by
        rw [List.map_id']
        exact grows.successors id (whole.present id member)
          fun isChanged => notExit (apart id member isChanged) }
  exact renamed.stateCount_eq whole
    (Nat.le_trans grows.size_le numbered) numbered rfl rfl

theorem Region.stateCount_copy {met wired : Copying}
    (whole : Region thorough graph fragment region)
    (finished : Copying.Finished graph fragment met wired)
    (numbered : wired.graph.size ≤ pastExit) :
    graph.stateCount fragment = wired.graph.stateCount
      ⟨met.rename fragment.entry, met.rename fragment.exit⟩ := by
  have renamed : Renamed graph fragment { id | graph.Meets fragment id }
      met.rename wired.graph :=
    { injective := fun id meets other otherMeets =>
        finished.injective id other meets otherMeets
      present := fun id meets => (finished.fresh id meets).2
      atomAt := fun id meets =>
        finished.wired.atomAt id ((finished.contains_iff id).mpr meets)
      successors := fun _ meets notExit =>
        finished.successors meets notExit }
  exact renamed.stateCount_eq whole.restrict
    (Nat.le_trans finished.wired.grows.size_le numbered) numbered rfl rfl

/-- A copy consists of new points, leads nowhere, changes no other point and
has the automaton of the fragment. -/
theorem Region.exists_copy (whole : Region thorough graph fragment region) :
    ∃ copy copied, graph.duplicate fragment = .ok (copy, copied) ∧
      copied.Passable copy ∧
      (∀ id, copied.ComesTo copy id → graph.size ≤ id) ∧
      copied.successors copy.exit = [] ∧
      (∀ id < graph.size, copied.point id = graph.point id) ∧
      (copied.size ≤ pastExit →
        copied.CompilesTo copy (graph.stateCount fragment)
          (graph.language fragment)) := by
  obtain ⟨met, wired, isCopy, finished⟩ := exists_duplicate whole
  have copyWhole := finished.region whole
  have grows := finished.wired.grows
  refine ⟨_, wired.graph, isCopy, copyWhole.isPassable, ?_,
    (finished.placed whole).onward, ?_, ?_⟩
  · intro id comes
    obtain ⟨original, meets, rfl⟩ :=
      copyWhole.of_meets ((meets_iff_comesTo ..).mpr comes)
    exact (finished.fresh original meets).1
  · intro id present
    rw [exists_point present,
      exists_point (Nat.lt_of_lt_of_le present grows.size_le),
      grows.atomAt id present,
      grows.successors id present (Set.notMem_empty id)]
  · intro numbered
    rw [whole.stateCount_copy finished numbered,
      ← (finished.placed whole).language]
    exact compilesTo_of_region copyWhole numbered

/-! ## Any further operations -/

/-- Whatever is done to the graph, as long as edges are added elsewhere or at
the exit, the fragment is compiled to what it was compiled to before. Its copies
are compiled to the same words with equally many nodes, as long as there is a
number for every point. -/
theorem compilesTo_rewired (passable : graph.Passable fragment) :
    ∃ states,
      (graph.size ≤ pastExit →
        graph.CompilesTo fragment states (graph.language fragment)) ∧
      ∀ after, graph.Reaches after → Untouched graph after fragment →
        (∀ store : Store,
          store.compile after fragment = store.compile graph fragment) ∧
        ∃ copy copied, after.duplicate fragment = .ok (copy, copied) ∧
          copied.Passable copy ∧
          (∀ id, copied.ComesTo copy id → after.size ≤ id) ∧
          copied.successors copy.exit = [] ∧
          (∀ id < after.size, copied.point id = after.point id) ∧
          (copied.size ≤ pastExit →
            copied.CompilesTo copy states (graph.language fragment)) := by
  have whole := passable.hasRegion
  refine ⟨graph.stateCount fragment, compilesTo_of_region whole, ?_⟩
  intro after reaches untouched
  have grows := untouched.extends reaches.grows
  have apart : ∀ id ∈ { id | graph.ComesTo fragment id },
      id ∈ graph.elsewhere fragment → id = fragment.exit :=
    fun id comes isElsewhere => isElsewhere comes
  -- The points that walks come to are a region of the new graph as well.
  have kept := whole.extend grows apart
  have sameWords := whole.language_extend grows apart
  constructor
  · exact whole.compile_extend grows apart
  · obtain ⟨copy, copied, isCopy, copyPassable, fresh, ends, same, compiles⟩ :=
      kept.exists_copy
    refine ⟨copy, copied, isCopy, copyPassable, fresh, ends, same, ?_⟩
    intro numbered
    have copyGrows := grows_of_duplicate isCopy
    rw [whole.stateCount_extend grows apart
      (Nat.le_trans copyGrows.size_le numbered), ← sameWords]
    exact compiles numbered

/-- A point that leads to the exit and to a dead end, and an exit that leads
back. -/
def loopedExit : FragmentGraph :=
  ⟨#[{ atom := some (.ofElement "a"), successors := [1, 2] },
    { successors := [0] },
    {}]⟩

theorem compilesTo_rewired_loopedExit :
    loopedExit.Passable ⟨0, 1⟩ ∧
    ∃ states after copy copied,
      loopedExit.connect 1 2 = .ok after ∧
      loopedExit.Reaches after ∧ Untouched loopedExit after ⟨0, 1⟩ ∧
      loopedExit.CompilesTo ⟨0, 1⟩ states (loopedExit.language ⟨0, 1⟩) ∧
      (∀ store : Store,
        store.compile after ⟨0, 1⟩ = store.compile loopedExit ⟨0, 1⟩) ∧
      after.duplicate ⟨0, 1⟩ = .ok (copy, copied) ∧
      copied.CompilesTo copy states (loopedExit.language ⟨0, 1⟩) := by
  have passable : loopedExit.Passable ⟨0, 1⟩ :=
    passable_of_forall (.single ⟨by decide, by decide⟩) (by decide)
      (by decide)
  have isLed : loopedExit.connect 1 2 = .ok (loopedExit.lead 1 [2]) :=
    connect_of_lt 2 (by decide)
  have reaches : loopedExit.Reaches (loopedExit.lead 1 [2]) :=
    .connect .refl isLed
  have untouched : Untouched loopedExit (loopedExit.lead 1 [2]) ⟨0, 1⟩ := by
    intro id _ notExit
    rw [successors_lead [2] (by decide)]
    exact if_neg notExit
  obtain ⟨states, initially, later⟩ := compilesTo_rewired passable
  obtain ⟨same, copy, copied, isCopy, _, _, _, _, copyCompiles⟩ :=
    later _ reaches untouched
  have numbered : copied.size ≤ pastExit := by
    cases isCopy
    decide
  exact ⟨passable, states, _, copy, copied, isLed, reaches, untouched,
    initially (by decide), same, isCopy, copyCompiles numbered⟩

end FragmentGraph

end ContentModel
