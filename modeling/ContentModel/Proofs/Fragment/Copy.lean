import ContentModel.Proofs.Fault
import ContentModel.Proofs.Fragment.Operators
import ContentModel.Proofs.Search

/-!
# Copies read what the original reads

The points that a copy is made of are those which a search meets that starts at
the entry and does not go on at the exit. The copy is wired like the original,
point by point, and so its passages are the passages of the original.
-/

namespace ContentModel

namespace FragmentGraph

/-! ## The points of a fragment -/

/-- Where a walk goes on inside a fragment with this exit. -/
def inside (graph : FragmentGraph) (exit id : Nat) :
    Except Fault (List Nat) :=
  .ok (if id = exit then [] else graph.successors id)

/-- The points that a passage from the entry may come by. -/
def Meets (graph : FragmentGraph) (fragment : Fragment) (id : Nat) : Prop :=
  Search.Reachable (graph.inside fragment.exit) [fragment.entry] id

theorem meets_entry (graph : FragmentGraph) (fragment : Fragment) :
    graph.Meets fragment fragment.entry :=
  Search.reachable_start (List.mem_singleton_self _)

theorem Meets.next {graph : FragmentGraph} {fragment : Fragment}
    {id next : Nat} (meets : graph.Meets fragment id)
    (different : id ≠ fragment.exit)
    (isNext : next ∈ graph.successors id) : graph.Meets fragment next :=
  Search.Reachable.next meets rfl (by rwa [if_neg different])

theorem Region.of_meets {thorough : Prop} {graph : FragmentGraph}
    {fragment : Fragment} {region : Set Nat}
    (whole : Region thorough graph fragment region) {id : Nat}
    (meets : graph.Meets fragment id) : id ∈ region := by
  refine Search.Reachable.invariant (motive := (· ∈ region)) meets ?_ ?_
  · intro start member
    rw [List.mem_singleton.mp member]
    exact whole.entry_mem
  · intro key found member answer next isNext
    cases answer
    by_cases atExit : key = fragment.exit
    · rw [if_pos atExit] at isNext
      exact absurd isNext List.not_mem_nil
    · rw [if_neg atExit] at isNext
      exact whole.closed key member atExit next isNext

theorem Meets.exit_of_passes {graph : FragmentGraph} {fragment : Fragment}
    {id : Nat} {word : List String} (meets : graph.Meets fragment id)
    (passes : graph.Passes fragment.exit id word) :
    graph.Meets fragment fragment.exit := by
  induction passes with
  | leave _ =>
      exact meets
  | step different isNext _ inductionHypothesis =>
      exact inductionHypothesis (meets.next different isNext)

/-! ## The room for a copy -/

private theorem edgeCount_eq (graph : FragmentGraph) :
    graph.edgeCount =
      (graph.points.toList.flatMap Point.successors).length := by
  have counted : ∀ (points : List Point) (count : Nat),
      points.foldl (fun count point => count + point.successors.length)
          count =
        count + (points.flatMap Point.successors).length := by
    intro points
    induction points with
    | nil =>
        intro count
        rfl
    | cons head tail inductionHypothesis =>
        intro count
        rw [List.foldl_cons, inductionHypothesis, List.flatMap_cons,
          List.length_append, Nat.add_assoc]
  rw [edgeCount, ← Array.foldl_toList, counted, Nat.zero_add]

/-- Every point that is met is the entry or the end of an edge. -/
private theorem Meets.mem_ends {graph : FragmentGraph} {fragment : Fragment}
    {id : Nat} (meets : graph.Meets fragment id) :
    id ∈ fragment.entry ::
      graph.points.toList.flatMap Point.successors := by
  refine Search.Reachable.invariant
    (motive := (· ∈ fragment.entry ::
      graph.points.toList.flatMap Point.successors)) meets ?_ ?_
  · intro start member
    rw [List.mem_singleton.mp member]
    exact List.mem_cons_self
  · intro key found _ answer next isNext
    cases answer
    have isSuccessor : next ∈ graph.successors key := by
      split at isNext
      · exact absurd isNext List.not_mem_nil
      · exact isNext
    have present := lt_size_of_mem_successors isSuccessor
    have found : graph.points[key]? = some graph.points[key] :=
      Array.getElem?_eq_getElem present
    rw [successors, found] at isSuccessor
    refine List.mem_cons_of_mem _ (List.mem_flatMap.mpr ⟨_, ?_, isSuccessor⟩)
    exact Array.mem_toList_iff.mpr (Array.getElem_mem present)

end FragmentGraph

/-! ## Meeting the points -/

namespace Copying

open FragmentGraph

/-- The points visited so far have copies behind the points of `graph`, which
read the same and lead nowhere yet. -/
structure Mirrors (graph : FragmentGraph) (copying : Copying)
    (visited : Visited Nat) : Prop where
  contains : ∀ id, copying.copies.contains id = visited.contains id
  trail : copying.trail = visited.trail
  grows : Extends ∅ graph copying.graph
  fresh : ∀ id copy : Nat, copying.copies[id]? = some copy →
    graph.size ≤ copy ∧ copy < copying.graph.size
  atomAt : ∀ id copy : Nat, copying.copies[id]? = some copy →
    copying.graph.atomAt copy = graph.atomAt id
  blank : ∀ id copy : Nat, copying.copies[id]? = some copy →
    copying.graph.successors copy = []
  injective : ∀ left right copy : Nat, copying.copies[left]? = some copy →
    copying.copies[right]? = some copy → left = right

theorem mirrors_start (graph : FragmentGraph) :
    Mirrors graph ⟨graph, ∅, []⟩ {} where
  contains id := by
    simp [Visited.contains]
  trail := rfl
  grows := Extends.refl ∅ graph
  fresh id copy found := by
    simp at found
  atomAt id copy found := by
    simp at found
  blank id copy found := by
    simp at found
  injective left right copy found := by
    simp at found

variable {thorough : Prop} {graph : FragmentGraph} {copying : Copying}
  {visited : Visited Nat}

/-- The copying after one more point was met. -/
private def afterMeeting (copying : Copying) (graph : FragmentGraph)
    (id : Nat) : Copying :=
  ⟨(copying.graph.addPoint { atom := graph.atomAt id }).2,
    copying.copies.insert id copying.graph.size, id :: copying.trail⟩

private theorem copies_afterMeeting
    {id other copy : Nat}
    (found : (copying.afterMeeting graph id).copies[other]? = some copy) :
    (other = id ∧ copy = copying.graph.size) ∨
      copying.copies[other]? = some copy := by
  simp only [afterMeeting, Std.TreeMap.getElem?_insert,
    Std.LawfulEqCmp.compare_eq_iff_eq] at found
  split at found
  · rename_i same
    exact Or.inl ⟨same.symm, (Option.some.inj found).symm⟩
  · exact Or.inr found

private theorem Mirrors.afterMeeting
    (mirrors : Mirrors graph copying visited) (id : Nat) :
    Mirrors graph (copying.afterMeeting graph id) (visited.add id) := by
  have grows := extends_addPoint copying.graph { atom := graph.atomAt id }
  have older : ∀ {other copy : Nat}, copying.copies[other]? = some copy →
      copy ≠ copying.graph.size :=
    fun found => Nat.ne_of_lt (mirrors.fresh _ _ found).2
  constructor
  · intro other
    have before := mirrors.contains other
    simp only [Visited.contains] at before
    simp only [Copying.afterMeeting, Visited.add, Visited.contains,
      Std.TreeMap.contains_insert, Std.TreeSet.contains_insert, before]
  · exact congrArg (id :: ·) mirrors.trail
  · exact mirrors.grows.andThen grows
  · intro other copy found
    have sizeEq : (copying.afterMeeting graph id).graph.size =
        copying.graph.size + 1 := size_addPoint ..
    rcases copies_afterMeeting found with ⟨rfl, rfl⟩ | before
    · exact ⟨mirrors.grows.size_le, by omega⟩
    · have := mirrors.fresh other copy before
      omega
  · intro other copy found
    simp only [Copying.afterMeeting, atomAt_addPoint]
    rcases copies_afterMeeting found with ⟨rfl, rfl⟩ | before
    · rw [if_pos rfl]
    · rw [if_neg (older before)]
      exact mirrors.atomAt other copy before
  · intro other copy found
    simp only [Copying.afterMeeting, successors_addPoint]
    rcases copies_afterMeeting found with ⟨rfl, rfl⟩ | before
    · rw [if_pos rfl]
    · rw [if_neg (older before)]
      exact mirrors.blank other copy before
  · intro left right copy foundLeft foundRight
    rcases copies_afterMeeting foundLeft with ⟨rfl, isNew⟩ | beforeLeft
    · rcases copies_afterMeeting foundRight with ⟨rfl, _⟩ | beforeRight
      · rfl
      · exact absurd isNew (older beforeRight)
    · rcases copies_afterMeeting foundRight with ⟨rfl, isNew⟩ | beforeRight
      · exact absurd isNew (older beforeLeft)
      · exact mirrors.injective left right copy beforeLeft beforeRight

private theorem Mirrors.point (mirrors : Mirrors graph copying visited)
    {id : Nat} (present : id < graph.size) :
    copying.graph.point id =
      .ok ⟨graph.atomAt id, graph.successors id⟩ := by
  rw [exists_point (Nat.lt_of_lt_of_le present mirrors.grows.size_le),
    mirrors.grows.atomAt id present,
    mirrors.grows.successors id present (Set.notMem_empty id)]

/-- Meeting points is the search for them: both skip the same points, ask for
the same neighbours and stop together. -/
private theorem meet_mirrors {fragment : Fragment} {region : Set Nat}
    (whole : Region thorough graph fragment region) (room : Nat)
    {waiting : List Nat} (within : ∀ id ∈ waiting, id ∈ region)
    (mirrors : Mirrors graph copying visited) :
    ∃ met found,
      Copying.meet fragment.exit room waiting copying = .ok met ∧
      Search.explore (· ++ ·) (graph.inside fragment.exit) room waiting
        visited = .ok found ∧
      Mirrors graph met found := by
  induction room generalizing waiting copying visited with
  | zero =>
      have sameTest : copying.copies.contains = visited.contains :=
        funext mirrors.contains
      unfold Copying.meet Search.explore
      rw [sameTest]
      cases remaining : waiting.dropWhile visited.contains with
      | nil =>
          exact ⟨copying, visited, rfl, rfl, mirrors⟩
      | cons id rest =>
          have member : id ∈ region := within id <|
            (List.dropWhile_sublist visited.contains).subset <| by
              rw [remaining]
              exact List.mem_cons_self
          have isPoint := mirrors.point (whole.present id member)
          refine ⟨copying, visited, ?_, rfl, mirrors⟩
          simp only [isPoint]
  | succ room inductionHypothesis =>
      have sameTest : copying.copies.contains = visited.contains :=
        funext mirrors.contains
      unfold Copying.meet Search.explore
      rw [sameTest]
      cases remaining : waiting.dropWhile visited.contains with
      | nil =>
          exact ⟨copying, visited, rfl, rfl, mirrors⟩
      | cons id rest =>
          have kept : ∀ other ∈ id :: rest, other ∈ region := by
            intro other isLeft
            apply within other
            apply (List.dropWhile_sublist visited.contains).subset
            rwa [remaining]
          have member := kept id List.mem_cons_self
          have isPoint := mirrors.point (whole.present id member)
          simp only [isPoint]
          refine inductionHypothesis ?_ (mirrors.afterMeeting id)
          intro other isWaiting
          rcases List.mem_append.mp isWaiting with isNext | isLeft
          · by_cases atExit : id = fragment.exit
            · rw [if_pos atExit] at isNext
              exact absurd isNext List.not_mem_nil
            · rw [if_neg atExit] at isNext
              exact whole.closed id member atExit other isNext
          · exact kept other (List.mem_cons_of_mem id isLeft)

/-! ## Wiring the copies -/

/-- The copy of a point that was met. -/
def rename (copying : Copying) (id : Nat) : Nat :=
  copying.copies[id]?.getD 0

theorem copyOf_eq_rename {id : Nat}
    (known : copying.copies.contains id = true) :
    copying.copyOf id = .ok (copying.rename id) := by
  rw [Std.TreeMap.contains_eq_isSome_getElem?] at known
  obtain ⟨copy, found⟩ := Option.isSome_iff_exists.mp known
  simp only [copyOf, rename, found, Option.getD_some]

theorem getElem?_eq_rename {id : Nat}
    (known : copying.copies.contains id = true) :
    copying.copies[id]? = some (copying.rename id) := by
  rw [Std.TreeMap.contains_eq_isSome_getElem?] at known
  obtain ⟨copy, found⟩ := Option.isSome_iff_exists.mp known
  simp only [rename, found, Option.getD_some]

/-- The copies of the points in `done` lead to the copies of their successors,
unless it is the exit that was copied; the others still lead nowhere. -/
structure Wired (graph : FragmentGraph) (met : Copying) (exit : Nat)
    (done : Set Nat) (wired : Copying) : Prop where
  copies : wired.copies = met.copies
  size : wired.graph.size = met.graph.size
  grows : Extends ∅ graph wired.graph
  atomAt : ∀ id, met.copies.contains id = true →
    wired.graph.atomAt (met.rename id) = graph.atomAt id
  leads : ∀ id, met.copies.contains id = true → id ∈ done → id ≠ exit →
    wired.graph.successors (met.rename id) =
      (graph.successors id).map met.rename
  blank : ∀ id, met.copies.contains id = true → id ∉ done ∨ id = exit →
    wired.graph.successors (met.rename id) = []

section Wiring

variable {met wired : Copying} {exit : Nat} {done : Set Nat}

private theorem Mirrors.unwired (mirrors : Mirrors graph met visited)
    (exit : Nat) :
    Wired graph met exit ∅ met where
  copies := rfl
  size := rfl
  grows := mirrors.grows
  atomAt id known := mirrors.atomAt id _ (getElem?_eq_rename known)
  leads id _ nothing := absurd nothing (Set.notMem_empty id)
  blank id known _ := mirrors.blank id _ (getElem?_eq_rename known)

private theorem getElem?_setSuccessors
    (graph : FragmentGraph) (id : Nat) (targets : List Nat) (other : Nat) :
    (graph.setSuccessors id targets).points[other]? =
      if id = other then
        graph.points[other]?.map fun point =>
          { point with successors := targets }
      else graph.points[other]? :=
  Array.getElem?_modify

theorem atomAt_setSuccessors
    (graph : FragmentGraph) (id : Nat) (targets : List Nat) (other : Nat) :
    (graph.setSuccessors id targets).atomAt other = graph.atomAt other := by
  simp only [FragmentGraph.atomAt, getElem?_setSuccessors]
  split
  · cases graph.points[other]? with
    | none => rfl
    | some point => rfl
  · rfl

theorem successors_setSuccessors
    {graph : FragmentGraph} {id : Nat} (present : id < graph.size)
    (targets : List Nat) (other : Nat) :
    (graph.setSuccessors id targets).successors other =
      if other = id then targets else graph.successors other := by
  simp only [FragmentGraph.successors, getElem?_setSuccessors]
  by_cases same : other = id
  · subst same
    have found : graph.points[other]? = some graph.points[other] :=
      Array.getElem?_eq_getElem present
    simp only [if_true, found, Option.map_some]
  · rw [if_neg same, if_neg (Ne.symm same)]

/-- The copies are new, so the points that were there keep their
successors. -/
private theorem Wired.insert (mirrors : Mirrors graph met visited)
    (before : Wired graph met exit done wired) {id : Nat}
    (known : met.copies.contains id = true) (different : id ≠ exit) :
    Wired graph met exit (insert id done)
      { wired with
        graph := wired.graph.setSuccessors (met.rename id)
          ((graph.successors id).map met.rename) } := by
  obtain ⟨isNew, isOld⟩ := mirrors.fresh id _ (getElem?_eq_rename known)
  have present : met.rename id < wired.graph.size := by
    rw [before.size]
    exact isOld
  have injective : ∀ other, met.copies.contains other = true →
      met.rename other = met.rename id → other = id := by
    intro other otherKnown same
    refine mirrors.injective other id _ (getElem?_eq_rename otherKnown) ?_
    rw [same]
    exact getElem?_eq_rename known
  constructor
  · exact before.copies
  · rw [← before.size]
    exact Array.size_modify
  · constructor
    · exact Nat.le_trans before.grows.size_le
        (Nat.le_of_eq Array.size_modify.symm)
    · intro other otherPresent
      rw [atomAt_setSuccessors, before.grows.atomAt other otherPresent]
    · intro other otherPresent kept
      rw [successors_setSuccessors present, if_neg (by omega),
        before.grows.successors other otherPresent kept]
  · intro other otherKnown
    rw [atomAt_setSuccessors, before.atomAt other otherKnown]
  · intro other otherKnown isDone otherDifferent
    rw [successors_setSuccessors present]
    by_cases same : other = id
    · rw [same, if_pos rfl]
    · rw [if_neg (same ∘ injective other otherKnown)]
      exact before.leads other otherKnown
        (isDone.resolve_left same) otherDifferent
  · intro other otherKnown isBlank
    rw [successors_setSuccessors present, if_neg, before.blank other otherKnown]
    · exact isBlank.imp (· ∘ Or.inr) (fun same => same)
    · intro same
      have := injective other otherKnown same
      subst this
      exact isBlank.elim (· (Or.inl rfl)) different

/-- The copy of the exit is not wired at all. -/
private theorem Wired.insertExit (before : Wired graph met exit done wired)
    {id : Nat} (atExit : id = exit) :
    Wired graph met exit (Insert.insert id done) wired where
  copies := before.copies
  size := before.size
  grows := before.grows
  atomAt := before.atomAt
  leads other known isDone different :=
    before.leads other known
      (isDone.resolve_left (different ∘ (·.trans atExit))) different
  blank other known isBlank :=
    before.blank other known (isBlank.imp_left (· ∘ Or.inr))

private theorem wire_wired (mirrors : Mirrors graph met visited)
    {order : List Nat}
    (known : ∀ id ∈ order, id < graph.size ∧
      met.copies.contains id = true ∧
      (id ≠ exit → ∀ next ∈ graph.successors id,
        met.copies.contains next = true))
    (before : Wired graph met exit done wired) :
    ∃ after, Copying.wire exit order wired = .ok after ∧
      Wired graph met exit (done ∪ { id | id ∈ order }) after := by
  induction order generalizing done wired with
  | nil =>
      refine ⟨wired, rfl, ?_⟩
      simpa using before
  | cons id rest inductionHypothesis =>
      have restKnown := fun other member =>
        known other (List.mem_cons_of_mem id member)
      obtain ⟨present, idKnown, nextKnown⟩ := known id List.mem_cons_self
      have sameDone : ∀ done : Set Nat,
          insert id done ∪ { other | other ∈ rest } =
            done ∪ { other | other ∈ id :: rest } := by
        intro done
        ext other
        simp [or_assoc, or_left_comm]
      by_cases atExit : id = exit
      · have after := inductionHypothesis restKnown
          (before.insertExit atExit)
        rw [sameDone] at after
        simp only [Copying.wire, if_pos atExit]
        exact after
      · have found : wired.graph.point id =
            .ok ⟨graph.atomAt id, graph.successors id⟩ := by
          rw [exists_point
              (Nat.lt_of_lt_of_le present before.grows.size_le),
            before.grows.atomAt id present,
            before.grows.successors id present (Set.notMem_empty id)]
        have copied : ∀ other, met.copies.contains other = true →
            wired.copyOf other = .ok (met.rename other) := by
          intro other otherKnown
          rw [copyOf, before.copies]
          exact copyOf_eq_rename otherKnown
        have after := inductionHypothesis restKnown
          (before.insert mirrors idKnown atExit)
        rw [sameDone] at after
        have targets : (graph.successors id).mapM wired.copyOf =
            .ok ((graph.successors id).map met.rename) :=
          mapM_eq_ok_of_forall fun next isNext =>
            copied next (nextKnown atExit next isNext)
        rw [Copying.wire, if_neg atExit, found]
        simp only [ok_bind, targets, copied id idKnown]
        exact after

end Wiring

/-! ## The finished copy -/

/-- The points that were met are those of the fragment, and their copies are
wired like them. -/
structure Finished (graph : FragmentGraph) (fragment : Fragment)
    (met wired : Copying) : Prop where
  contains_iff : ∀ id,
    met.copies.contains id = true ↔ graph.Meets fragment id
  fresh : ∀ id, graph.Meets fragment id →
    graph.size ≤ met.rename id ∧ met.rename id < wired.graph.size
  injective : ∀ left right, graph.Meets fragment left →
    graph.Meets fragment right → met.rename left = met.rename right →
    left = right
  wired : Wired graph met fragment.exit { id | graph.Meets fragment id } wired

namespace Finished

variable {fragment : Fragment} {met wired : Copying}

theorem reading (finished : Finished graph fragment met wired) {id : Nat}
    (meets : graph.Meets fragment id) :
    wired.graph.reading (met.rename id) = graph.reading id := by
  rw [FragmentGraph.reading, FragmentGraph.reading,
    finished.wired.atomAt id ((finished.contains_iff id).mpr meets)]

theorem successors (finished : Finished graph fragment met wired) {id : Nat}
    (meets : graph.Meets fragment id) (different : id ≠ fragment.exit) :
    wired.graph.successors (met.rename id) =
      (graph.successors id).map met.rename :=
  finished.wired.leads id ((finished.contains_iff id).mpr meets) meets
    different

theorem passes_rename (finished : Finished graph fragment met wired)
    {id : Nat} {word : List String} (meets : graph.Meets fragment id)
    (passes : graph.Passes fragment.exit id word) :
    wired.graph.Passes (met.rename fragment.exit) (met.rename id) word := by
  induction passes with
  | leave _ =>
      rw [← finished.reading meets]
      exact Passes.leave (finished.fresh _ meets).2
  | @step id next word different isNext passes inductionHypothesis =>
      have nextMeets := meets.next different isNext
      have exitMeets := nextMeets.exit_of_passes passes
      rw [← finished.reading meets]
      refine Passes.step ?_ ?_ (inductionHypothesis nextMeets)
      · exact different ∘ finished.injective _ _ meets exitMeets
      · rw [finished.successors meets different]
        exact List.mem_map_of_mem isNext

theorem passes_of_rename (finished : Finished graph fragment met wired)
    (exitMeets : graph.Meets fragment fragment.exit)
    (exitPresent : fragment.exit < graph.size) {copy : Nat}
    {word : List String}
    (passes : wired.graph.Passes (met.rename fragment.exit) copy word)
    {id : Nat} (meets : graph.Meets fragment id)
    (same : met.rename id = copy) :
    graph.Passes fragment.exit id word := by
  induction passes generalizing id with
  | leave _ =>
      have := finished.injective _ _ meets exitMeets same
      subst this
      rw [finished.reading meets]
      exact Passes.leave exitPresent
  | @step copy next word different isNext _ inductionHypothesis =>
      subst same
      have notExit : id ≠ fragment.exit :=
        different ∘ congrArg met.rename
      rw [finished.successors meets notExit] at isNext
      obtain ⟨original, isOriginal, isCopy⟩ := List.mem_map.mp isNext
      rw [finished.reading meets]
      exact Passes.step notExit isOriginal
        (inductionHypothesis (meets.next notExit isOriginal) isCopy)

theorem region (finished : Finished graph fragment met wired)
    {original : Set Nat} (whole : Region thorough graph fragment original) :
    Region thorough wired.graph
      ⟨met.rename fragment.entry, met.rename fragment.exit⟩
      (met.rename '' { id | graph.Meets fragment id }) := by
  have entryMeets := meets_entry graph fragment
  constructor
  · exact Set.mem_image_of_mem met.rename entryMeets
  · obtain ⟨word, passes⟩ := whole.passable
    exact Set.mem_image_of_mem met.rename (entryMeets.exit_of_passes passes)
  · rintro _ ⟨id, meets, rfl⟩
    exact (finished.fresh id meets).2
  · rintro _ ⟨id, meets, rfl⟩ different next isNext
    have notExit : id ≠ fragment.exit :=
      different ∘ congrArg met.rename
    rw [finished.successors meets notExit] at isNext
    obtain ⟨original, isOriginal, rfl⟩ := List.mem_map.mp isNext
    exact Set.mem_image_of_mem met.rename (meets.next notExit isOriginal)
  · rintro _ ⟨id, meets, rfl⟩ must
    have mustBefore : thorough ∨ id = fragment.entry :=
      must.imp_right (finished.injective _ _ meets entryMeets)
    obtain ⟨word, passes⟩ :=
      whole.finishes id (whole.of_meets meets) mustBefore
    exact ⟨word, finished.passes_rename meets passes⟩

theorem placed (finished : Finished graph fragment met wired)
    {original : Set Nat} (whole : Region thorough graph fragment original) :
    Placed thorough wired.graph [] graph.size wired.graph.size
      ⟨met.rename fragment.entry, met.rename fragment.exit⟩
      (graph.language fragment) := by
  have entryMeets := meets_entry graph fragment
  obtain ⟨word, passes⟩ := whole.passable
  have exitMeets := entryMeets.exit_of_passes passes
  constructor
  · refine ⟨_, ?_, finished.region whole⟩
    rintro _ ⟨id, meets, rfl⟩
    exact finished.fresh id meets
  · exact finished.wired.blank _
      ((finished.contains_iff _).mpr exitMeets) (Or.inr rfl)
  · ext word
    constructor
    · intro passes
      exact finished.passes_of_rename exitMeets
        (whole.present _ whole.exit_mem) passes entryMeets rfl
    · intro passes
      exact finished.passes_rename entryMeets passes

end Finished

/-- Both loops of a copy end, and the copy is finished then. -/
private theorem exists_finished {fragment : Fragment} {region : Set Nat}
    (whole : Region thorough graph fragment region) :
    ∃ met wired,
      Copying.meet fragment.exit (graph.edgeCount + 1) [fragment.entry]
        ⟨graph, ∅, []⟩ = .ok met ∧
      Copying.wire fragment.exit met.trail.reverse met = .ok wired ∧
      Finished graph fragment met wired := by
  have within : ∀ id ∈ [fragment.entry], id ∈ region := by
    simpa using whole.entry_mem
  obtain ⟨met, found, isMet, isFound, mirrors⟩ :=
    meet_mirrors whole (graph.edgeCount + 1) within (mirrors_start graph)
  have bounded : ∀ id, graph.Meets fragment id →
      Search.Answers (graph.inside fragment.exit) id ∧
        id ∈ fragment.entry ::
          graph.points.toList.flatMap Point.successors :=
    fun _ meets => ⟨⟨_, rfl⟩, Meets.mem_ends meets⟩
  have enough : (fragment.entry ::
      graph.points.toList.flatMap Point.successors).length ≤
      graph.edgeCount + 1 := by
    rw [List.length_cons, ← edgeCount_eq]
  obtain ⟨visited, isVisited, finished⟩ :=
    Search.exists_depthFirst bounded enough
  have same : visited = found := by
    rw [Search.depthFirst, isFound] at isVisited
    exact (Except.ok.inj isVisited).symm
  subst same
  have contains_iff : ∀ id,
      met.copies.contains id = true ↔ graph.Meets fragment id := by
    intro id
    rw [mirrors.contains, finished.contains_iff]
    exact Iff.rfl
  have trail_iff : ∀ id,
      id ∈ met.trail.reverse ↔ graph.Meets fragment id := by
    intro id
    rw [List.mem_reverse, mirrors.trail, finished.mem_trail_iff,
      finished.contains_iff]
    exact Iff.rfl
  have onTrail : ∀ id ∈ met.trail.reverse, id < graph.size ∧
      met.copies.contains id = true ∧
      (id ≠ fragment.exit → ∀ next ∈ graph.successors id,
        met.copies.contains next = true) := by
    intro id member
    have meets := (trail_iff id).mp member
    refine ⟨whole.present id (whole.of_meets meets),
      (contains_iff id).mpr meets, ?_⟩
    intro different next isNext
    exact (contains_iff next).mpr (meets.next different isNext)
  obtain ⟨wired, isWired, wiring⟩ :=
    wire_wired mirrors onTrail (mirrors.unwired fragment.exit)
  have allDone : ∅ ∪ { id | id ∈ met.trail.reverse } =
      { id | graph.Meets fragment id } := by
    rw [Set.empty_union]
    exact Set.ext trail_iff
  rw [allDone] at wiring
  have known : ∀ id, graph.Meets fragment id →
      met.copies[id]? = some (met.rename id) :=
    fun id meets => getElem?_eq_rename ((contains_iff id).mpr meets)
  refine ⟨met, wired, isMet, isWired, contains_iff, ?_, ?_, wiring⟩
  · intro id meets
    rw [wiring.size]
    exact mirrors.fresh id _ (known id meets)
  · intro left right leftMeets rightMeets same
    apply mirrors.injective left right _ (known left leftMeets)
    rw [same]
    exact known right rightMeets

end Copying

namespace FragmentGraph

variable {thorough : Prop} {graph : FragmentGraph} {fragment : Fragment}

/-- A fragment of a region is copied. -/
theorem exists_duplicate {region : Set Nat}
    (whole : Region thorough graph fragment region) :
    ∃ met wired : Copying,
      graph.duplicate fragment =
        .ok (⟨met.rename fragment.entry, met.rename fragment.exit⟩,
          wired.graph) ∧
      Copying.Finished graph fragment met wired := by
  obtain ⟨met, wired, isMet, isWired, finished⟩ :=
    Copying.exists_finished whole
  have copied : ∀ id, graph.Meets fragment id →
      wired.copyOf id = .ok (met.rename id) := by
    intro id meets
    rw [Copying.copyOf, finished.wired.copies]
    exact Copying.copyOf_eq_rename ((finished.contains_iff id).mpr meets)
  have entryMeets := meets_entry graph fragment
  obtain ⟨word, passes⟩ := whole.passable
  refine ⟨met, wired, ?_, finished⟩
  rw [duplicate, isMet]
  simp only [ok_bind, isWired, copied _ entryMeets,
    copied _ (entryMeets.exit_of_passes passes)]
  rfl

/-- Wherever the original leads to, the copy leads nowhere. -/
theorem builds_duplicate {onward : List Nat} {low high : Nat}
    {language : Language String}
    (placed : Placed thorough graph onward low high fragment language) :
    Builds thorough graph ∅ graph.size language
      (graph.duplicate fragment) := by
  obtain ⟨region, _, whole⟩ := placed.region
  obtain ⟨met, wired, isCopy, finished⟩ := exists_duplicate whole
  refine ⟨_, wired.graph, isCopy, ?_, finished.wired.grows⟩
  rw [← placed.language]
  exact finished.placed whole

end FragmentGraph

end ContentModel
