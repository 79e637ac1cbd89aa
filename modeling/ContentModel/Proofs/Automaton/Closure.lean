import ContentModel.AtomMap.Lookup
import ContentModel.Automaton.OfFragment
import ContentModel.Proofs.Fault
import ContentModel.Proofs.Fragment.Passage
import ContentModel.Proofs.Search

/-!
# Sets of points

A set of points stands for the words that are read from one of its points on.
Going on without reading changes the points but not the words
(`closure_spec`), and reading a name splits the words by their first name
(`readingSteps_spec`).
-/

namespace ContentModel.FragmentGraph

/-! ## Runs -/

/-- A run from a point until it is done reads this word. -/
inductive Runs (graph : FragmentGraph) (exit : Nat) :
    Nat → List String → Prop
  | past :
      Runs graph exit pastExit []
  | leave :
      exit < graph.size →
      Runs graph exit exit (graph.reading exit)
  | step {id next : Nat} {word : List String} :
      id ≠ exit →
      next ∈ graph.successors id →
      Runs graph exit next word →
      Runs graph exit id (graph.reading id ++ word)

/-- Points at which walks stay that go on before the exit, and the mark. -/
structure Stays (graph : FragmentGraph) (exit : Nat) (area : Set Nat) :
    Prop where
  mark_mem : pastExit ∈ area
  present : ∀ id ∈ area, id = pastExit ∨ id < graph.size
  closed : ∀ id ∈ area, id ≠ pastExit → id ≠ exit →
    ∀ next ∈ graph.successors id, next ∈ area

theorem Stays.lt_size {graph : FragmentGraph} {exit id : Nat} {area : Set Nat}
    (stays : Stays graph exit area) (member : id ∈ area)
    (isPoint : id ≠ pastExit) : id < graph.size :=
  (stays.present id member).resolve_left isPoint

/-- Points at which walks stay, in a graph where the mark is no point. -/
structure Within (graph : FragmentGraph) (exit : Nat) (area : Set Nat) :
    Prop extends Stays graph exit area where
  numbered : graph.size ≤ pastExit

namespace Within

variable {graph : FragmentGraph} {exit id : Nat} {area : Set Nat}

theorem ne_of_lt (within : Within graph exit area)
    (present : id < graph.size) : id ≠ pastExit :=
  Nat.ne_of_lt (Nat.lt_of_lt_of_le present within.numbered)

theorem runs_past_iff (within : Within graph exit area)
    (word : List String) :
    graph.Runs exit pastExit word ↔ word = [] := by
  constructor
  · intro runs
    cases runs with
    | past =>
        rfl
    | leave present =>
        exact absurd rfl (within.ne_of_lt present)
    | step _ isNext _ =>
        exact absurd rfl (within.ne_of_lt (lt_size_of_mem_successors isNext))
  · rintro rfl
    exact Runs.past

end Within

/-! ## Regions -/

section Regions

variable {thorough : Prop} {graph : FragmentGraph} {fragment : Fragment}
  {region : Set Nat}

theorem Region.ne_pastExit (whole : Region thorough graph fragment region)
    (numbered : graph.size ≤ pastExit) {id : Nat} (member : id ∈ region) :
    id ≠ pastExit :=
  Nat.ne_of_lt (Nat.lt_of_lt_of_le (whole.present id member) numbered)

theorem Region.stays (whole : Region thorough graph fragment region) :
    Stays graph fragment.exit (insert pastExit region) where
  mark_mem := Set.mem_insert pastExit region
  present id member := member.imp_right (whole.present id)
  closed id member isPoint notExit next isNext :=
    Set.mem_insert_of_mem pastExit <|
      whole.closed id (member.resolve_left isPoint) notExit next isNext

theorem Region.within (whole : Region thorough graph fragment region)
    (numbered : graph.size ≤ pastExit) :
    Within graph fragment.exit (insert pastExit region) where
  toStays := whole.stays
  numbered := numbered

/-- In a region a run is a passage: it does not come to the mark. -/
theorem Region.runs_iff (whole : Region thorough graph fragment region)
    (numbered : graph.size ≤ pastExit) {id : Nat} (member : id ∈ region)
    (word : List String) :
    graph.Runs fragment.exit id word ↔ graph.Passes fragment.exit id word := by
  constructor
  · intro runs
    induction runs with
    | past =>
        exact absurd rfl (whole.ne_pastExit numbered member)
    | leave present =>
        exact Passes.leave present
    | step notExit isNext _ inductionHypothesis =>
        exact Passes.step notExit isNext
          (inductionHypothesis (whole.closed _ member notExit _ isNext))
  · intro passes
    induction passes with
    | leave present =>
        exact Runs.leave present
    | step notExit isNext _ inductionHypothesis =>
        exact Runs.step notExit isNext
          (inductionHypothesis (whole.closed _ member notExit _ isNext))

theorem Region.finishes_runs (whole : Region True graph fragment region)
    (numbered : graph.size ≤ pastExit) :
    ∀ id ∈ insert pastExit region,
      ∃ word, graph.Runs fragment.exit id word := by
  rintro id (isMark | member)
  · rw [isMark]
    exact ⟨[], Runs.past⟩
  · obtain ⟨word, passes⟩ := whole.finishes id member (Or.inl trivial)
    exact ⟨word, (whole.runs_iff numbered member word).mpr passes⟩

end Regions

/-! ## Readings -/

theorem readsAt_iff (graph : FragmentGraph) (id : Nat) :
    graph.readsAt id = true ↔ ∃ atom, graph.atomAt id = some atom := by
  rw [readsAt, atomAt]
  cases graph.points[id]? with
  | none =>
      simp
  | some point =>
      exact Option.isSome_iff_exists

theorem reading_of_atomAt {graph : FragmentGraph} {id : Nat} {atom : Atom}
    (reads : graph.atomAt id = some atom) :
    graph.reading id = [atom.name] := by
  rw [reading, reads]
  rfl

theorem reading_eq_nil {graph : FragmentGraph} {id : Nat}
    (silent : graph.readsAt id = false) : graph.reading id = [] := by
  cases reads : graph.atomAt id with
  | none =>
      rw [reading, reads]
      rfl
  | some atom =>
      have impossible := (readsAt_iff graph id).mpr ⟨atom, reads⟩
      rw [silent] at impossible
      cases impossible

/-- Nothing is read at the mark. -/
theorem Within.ne_of_atomAt {graph : FragmentGraph} {exit id : Nat}
    {area : Set Nat} {atom : Atom} (within : Within graph exit area)
    (reads : graph.atomAt id = some atom) : id ≠ pastExit := by
  rintro rfl
  rw [atomAt, Array.getElem?_eq_none within.numbered] at reads
  cases reads

/-! ## Closures -/

section Closure

variable {graph : FragmentGraph} {exit : Nat} {area : Set Nat}
  {starts : List Nat}

/-- A point to which a walk goes on without reading. -/
def Drifts (graph : FragmentGraph) (exit : Nat) (starts : List Nat)
    (id : Nat) : Prop :=
  Search.Reachable (graph.silentSteps exit) starts id

/-- A walk may be done at the point without reading there. -/
def Done (graph : FragmentGraph) (exit id : Nat) : Prop :=
  id = pastExit ∨ (id = exit ∧ graph.readsAt id = false)

theorem silentSteps_eq (stays : Stays graph exit area) {id : Nat}
    (member : id ∈ area) :
    graph.silentSteps exit id =
      .ok (if id = pastExit ∨ id = exit ∨ graph.readsAt id = true then []
        else graph.successors id) := by
  rw [silentSteps]
  by_cases isMark : id = pastExit
  · rw [if_pos isMark, if_pos (Or.inl isMark)]
  · have present := stays.lt_size member isMark
    have isPoint := exists_point present
    have reads : (graph.atomAt id).isSome = graph.readsAt id := by
      rw [Bool.eq_iff_iff, readsAt_iff, Option.isSome_iff_exists]
    rw [if_neg isMark, isPoint]
    simp only [Point.isEpsilon, ← Option.not_isSome, reads]
    by_cases atExit : id = exit
    · simp [atExit]
    · cases graph.readsAt id with
      | true => simp [atExit]
      | false => simp [atExit, isMark]

theorem Drifts.mem (stays : Stays graph exit area)
    (inside : ∀ id ∈ starts, id ∈ area) {id : Nat}
    (drifts : graph.Drifts exit starts id) : id ∈ area := by
  apply Search.Reachable.invariant (motive := (· ∈ area)) drifts inside
  intro key found member answer next isNext
  rw [silentSteps_eq stays member] at answer
  cases answer
  split at isNext
  · exact absurd isNext List.not_mem_nil
  · rename_i goesOn
    exact stays.closed key member (fun isMark => goesOn (Or.inl isMark))
      (fun atExit => goesOn (Or.inr (Or.inl atExit))) next isNext

/-- What is read after drifting is read from a start on. -/
theorem Drifts.runs (stays : Stays graph exit area)
    (inside : ∀ id ∈ starts, id ∈ area) {id : Nat} {word : List String}
    (drifts : graph.Drifts exit starts id) (runs : graph.Runs exit id word) :
    ∃ start ∈ starts, graph.Runs exit start word := by
  have back : graph.Drifts exit starts id ∧
      (graph.Runs exit id word →
        ∃ start ∈ starts, graph.Runs exit start word) := by
    refine Search.Reachable.invariant
      (motive := fun id => graph.Drifts exit starts id ∧
        (graph.Runs exit id word →
          ∃ start ∈ starts, graph.Runs exit start word)) drifts ?_ ?_
    · intro start member
      exact ⟨Search.reachable_start member, fun runs => ⟨start, member, runs⟩⟩
    · rintro key found ⟨keyDrifts, keyBack⟩ answer next isNext
      refine ⟨Search.Reachable.next keyDrifts answer isNext, ?_⟩
      intro nextRuns
      rw [silentSteps_eq stays (keyDrifts.mem stays inside)] at answer
      cases answer
      split at isNext
      · exact absurd isNext List.not_mem_nil
      · rename_i goesOn
        have notExit : key ≠ exit :=
          fun atExit => goesOn (Or.inr (Or.inl atExit))
        have silent : graph.readsAt key = false :=
          Bool.eq_false_iff.mpr fun reads => goesOn (Or.inr (Or.inr reads))
        have keyRuns := Runs.step notExit isNext nextRuns
        rw [reading_eq_nil silent] at keyRuns
        exact keyBack keyRuns
  exact back.2 runs

/-- Before a run reads anything it drifts to where it reads or is done. -/
theorem Drifts.of_runs (within : Within graph exit area)
    (inside : ∀ id ∈ starts, id ∈ area) {id : Nat} {word : List String}
    (drifts : graph.Drifts exit starts id) (runs : graph.Runs exit id word) :
    (∃ other, graph.Drifts exit starts other ∧
      graph.readsAt other = true ∧ graph.Runs exit other word) ∨
    (word = [] ∧ ∃ other, graph.Drifts exit starts other ∧
      graph.Done exit other) := by
  induction runs with
  | past =>
      exact Or.inr ⟨rfl, _, drifts, Or.inl rfl⟩
  | leave present =>
      cases reads : graph.readsAt exit with
      | true =>
          exact Or.inl ⟨exit, drifts, reads, Runs.leave present⟩
      | false =>
          exact Or.inr ⟨reading_eq_nil reads, exit, drifts,
            Or.inr ⟨rfl, reads⟩⟩
  | @step id next word notExit isNext nextRuns inductionHypothesis =>
      cases reads : graph.readsAt id with
      | true =>
          exact Or.inl ⟨id, drifts, reads, Runs.step notExit isNext nextRuns⟩
      | false =>
          have present := lt_size_of_mem_successors isNext
          have answer := silentSteps_eq within.toStays (drifts.mem within.toStays inside)
          rw [if_neg (by
            rw [reads]
            simp [within.ne_of_lt present, notExit])] at answer
          rw [reading_eq_nil reads]
          exact inductionHypothesis
            (Search.Reachable.next drifts answer isNext)

/-- The search for the points to which walks drift comes to an end. -/
theorem exists_drifted (stays : Stays graph exit area)
    (inside : ∀ id ∈ starts, id ∈ area) :
    ∃ met, Search.depthFirst (graph.size + 2) (graph.silentSteps exit)
        starts = .ok met ∧
      Search.Finished (graph.silentSteps exit) starts met := by
  have bounded : ∀ id, graph.Drifts exit starts id →
      Search.Answers (graph.silentSteps exit) id ∧
        id ∈ pastExit :: List.range graph.size := by
    intro id drifts
    have member := drifts.mem stays inside
    refine ⟨⟨_, silentSteps_eq stays member⟩, ?_⟩
    rcases stays.present id member with isMark | present
    · rw [isMark]
      exact List.mem_cons_self
    · exact List.mem_cons_of_mem _ (List.mem_range.mpr present)
  have enough :
      (pastExit :: List.range graph.size).length ≤ graph.size + 2 := by
    simp
  exact Search.exists_depthFirst bounded enough

theorem memberAt_eq_some_iff (graph : FragmentGraph) (exit other id : Nat) :
    graph.memberAt exit other = some id ↔
      (id ≠ pastExit ∧ graph.readsAt id = true ∧ other = id) ∨
      (id = pastExit ∧ graph.Done exit other) := by
  rw [memberAt, Done]
  grind

/-- A set is what the points of a search stand for, each once and in ascending
order. -/
theorem exists_met_of_closure {set : List Nat}
    (isSet : graph.closure exit starts = .ok set) :
    ∃ met, Search.depthFirst (graph.size + 2) (graph.silentSteps exit)
        starts = .ok met ∧
      set.Pairwise (· < ·) ∧
      ∀ id, id ∈ set ↔
        ∃ other ∈ met.ascending, graph.memberAt exit other = some id := by
  rw [closure, bind_eq_ok_iff] at isSet
  obtain ⟨met, isMet, same⟩ := isSet
  cases same
  refine ⟨met, isMet, ?_, ?_⟩
  · exact Std.TreeSet.ordered_toList.imp Nat.compare_eq_lt.mp
  · intro id
    rw [Std.TreeSet.mem_toList, Std.TreeSet.mem_ofList,
      List.contains_iff_mem, List.mem_filterMap]

/-- The set of the points at which a walk from one of the starts reads next,
with the mark if it may be done before. -/
theorem closure_spec (stays : Stays graph exit area)
    (inside : ∀ id ∈ starts, id ∈ area) :
    ∃ set, graph.closure exit starts = .ok set ∧
      set.Pairwise (· < ·) ∧
      (∀ id, id ∈ set ↔
        (id ≠ pastExit ∧ graph.readsAt id = true ∧
          graph.Drifts exit starts id) ∨
        (id = pastExit ∧ ∃ other, graph.Drifts exit starts other ∧
          graph.Done exit other)) := by
  obtain ⟨met, isMet, finished⟩ := exists_drifted stays inside
  have isSet : ∃ set, graph.closure exit starts = .ok set := by
    rw [closure, isMet]
    exact ⟨_, rfl⟩
  obtain ⟨set, isSet⟩ := isSet
  obtain ⟨same, isSame, ascending, member⟩ := exists_met_of_closure isSet
  rw [isMet] at isSame
  cases isSame
  refine ⟨set, isSet, ascending, ?_⟩
  intro id
  simp only [member, finished.mem_ascending_iff, memberAt_eq_some_iff]
  constructor
  · intro held
    obtain ⟨other, drifts, reading | done⟩ := held
    · obtain ⟨isPoint, reads, same⟩ := reading
      exact Or.inl ⟨isPoint, reads, same ▸ drifts⟩
    · exact Or.inr ⟨done.1, other, drifts, done.2⟩
  · intro either
    cases either with
    | inl reading =>
        obtain ⟨isPoint, reads, drifts⟩ := reading
        exact ⟨id, drifts, Or.inl ⟨isPoint, reads, rfl⟩⟩
    | inr finishedThere =>
        obtain ⟨isMark, other, drifts, done⟩ := finishedThere
        exact ⟨other, drifts, Or.inr ⟨isMark, done⟩⟩

end Closure

/-! ## Reading -/

/-- Where a walk may go on after it has read at a point. -/
def following (graph : FragmentGraph) (exit id : Nat) : List Nat :=
  if id = exit then [pastExit] else graph.successors id

/-- The name is read at the point. -/
def ReadsName (graph : FragmentGraph) (id : Nat) (name : String) : Prop :=
  id ≠ pastExit ∧ ∃ atom, graph.atomAt id = some atom ∧ atom.name = name

/-- After reading at the points of a set a table holds, under each name that is
read, where a walk may go on from there. -/
structure Gathers (graph : FragmentGraph) (exit : Nat) (set : List Nat)
    (before after : AtomMap (List Nat)) : Prop where
  listed_iff : ∀ name, (∃ starts, after.find? name = some starts) ↔
    (∃ starts, before.find? name = some starts) ∨
      ∃ id ∈ set, graph.ReadsName id name
  mem_iff : ∀ name next,
    (∃ starts, after.find? name = some starts ∧ next ∈ starts) ↔
      (∃ starts, before.find? name = some starts ∧ next ∈ starts) ∨
        ∃ id ∈ set, graph.ReadsName id name ∧
          next ∈ graph.following exit id

section Reading

variable {graph : FragmentGraph} {exit : Nat} {set : List Nat}

private theorem Gathers.skip {id : Nat} {before after : AtomMap (List Nat)}
    (gathers : Gathers graph exit set before after)
    (silent : ∀ name, ¬ graph.ReadsName id name) :
    Gathers graph exit (id :: set) before after where
  listed_iff name := by
    rw [gathers.listed_iff name]
    simp [silent]
  mem_iff name next := by
    rw [gathers.mem_iff name next]
    simp [silent]

private theorem Gathers.read {id : Nat} {atom : Atom}
    {before after : AtomMap (List Nat)}
    (gathers : Gathers graph exit set
      (before.alter atom fun found =>
        graph.following exit id ++ found.getD []) after)
    (isPoint : id ≠ pastExit) (reads : graph.atomAt id = some atom) :
    Gathers graph exit (id :: set) before after := by
  have readsName : ∀ name, graph.ReadsName id name ↔ name = atom.name := by
    intro name
    rw [ReadsName, reads]
    constructor
    · rintro ⟨_, other, same, isName⟩
      cases same
      exact isName.symm
    · intro isName
      exact ⟨isPoint, atom, rfl, isName.symm⟩
  constructor
  · intro name
    rw [gathers.listed_iff name, AtomMap.find?_alter]
    simp only [List.mem_cons, exists_eq_or_imp, readsName]
    by_cases isName : name = atom.name
    · simp [isName]
    · simp [isName]
  · intro name next
    rw [gathers.mem_iff name next, AtomMap.find?_alter]
    simp only [List.mem_cons, exists_eq_or_imp, readsName]
    by_cases isName : name = atom.name
    · cases before.find? name with
      | none =>
          simp [isName]
      | some starts =>
          simp [isName, or_assoc, or_left_comm]
    · simp [isName]

theorem readingSteps_spec (exit : Nat)
    (present : ∀ id ∈ set, id = pastExit ∨ id < graph.size)
    (before : AtomMap (List Nat)) :
    ∃ after, graph.readingSteps exit set before = .ok after ∧
      Gathers graph exit set before after := by
  induction set generalizing before with
  | nil =>
      refine ⟨before, rfl, ?_, ?_⟩
      · simp
      · simp
  | cons id rest inductionHypothesis =>
      have restPresent := fun other member =>
        present other (List.mem_cons_of_mem id member)
      rw [readingSteps]
      by_cases isMark : id = pastExit
      · obtain ⟨after, isAfter, gathers⟩ :=
          inductionHypothesis restPresent before
        rw [if_pos isMark]
        exact ⟨after, isAfter,
          gathers.skip fun name reads => reads.1 isMark⟩
      · have within := (present id List.mem_cons_self).resolve_left isMark
        rw [if_neg isMark, exists_point within]
        cases reads : graph.atomAt id with
        | none =>
            obtain ⟨after, isAfter, gathers⟩ :=
              inductionHypothesis restPresent before
            refine ⟨after, isAfter, gathers.skip ?_⟩
            rintro name ⟨_, atom, impossible, _⟩
            rw [reads] at impossible
            cases impossible
        | some atom =>
            obtain ⟨after, isAfter, gathers⟩ :=
              inductionHypothesis restPresent
                (before.alter atom fun found =>
                  graph.following exit id ++ found.getD [])
            exact ⟨after, isAfter, gathers.read isMark reads⟩

end Reading

end ContentModel.FragmentGraph
