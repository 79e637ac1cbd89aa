import ContentModel.Proofs.Automaton.Closure
import ContentModel.Proofs.Automaton.Walk
import Mathlib.Data.List.Pairwise

/-!
# Automata of fragments accept what the fragments read

The keys of the construction are sets of points. The words that are read from
the points of a set on are the words that the set accepts as a key.
-/

namespace ContentModel

namespace FragmentGraph

open Automaton

variable {graph : FragmentGraph} {exit : Nat} {area : Set Nat}
  {set starts : List Nat}

/-- The words that are read from some point of a set on. -/
def wordsFrom (graph : FragmentGraph) (exit : Nat) (set : List Nat) :
    Language String :=
  { word | ∃ id ∈ set, graph.Runs exit id word }

theorem mem_wordsFrom_iff (graph : FragmentGraph) (exit : Nat)
    (set : List Nat) (word : List String) :
    word ∈ graph.wordsFrom exit set ↔
      ∃ id ∈ set, graph.Runs exit id word :=
  Iff.rfl

/-- Points of the area at which something is read, and the mark, in ascending
order. -/
structure Attentive (graph : FragmentGraph) (area : Set Nat)
    (set : List Nat) : Prop where
  ascending : set.Pairwise (· < ·)
  mem : ∀ id ∈ set, id ∈ area ∧ (id = pastExit ∨ graph.readsAt id = true)

/-- The set of the points at which a walk from one of the starts reads
next. -/
def closureOf (graph : FragmentGraph) (exit : Nat) (starts : List Nat) :
    List Nat :=
  (graph.closure exit starts).toOption.getD []

/-- What the state of a set is. -/
def setSpec (graph : FragmentGraph) (exit : Nat) (set : List Nat) :
    SubsetStep (List Nat) :=
  (graph.setStep exit set).toOption.getD .empty

/-! ## Closures -/

theorem pairwise_closureOf (graph : FragmentGraph) (exit : Nat)
    (starts : List Nat) :
    (graph.closureOf exit starts).Pairwise (· < ·) := by
  rw [closureOf]
  cases isSet : graph.closure exit starts with
  | error fault =>
      exact List.Pairwise.nil
  | ok set =>
      obtain ⟨_, _, ascending, _⟩ := exists_met_of_closure isSet
      exact ascending

section Closures

variable (stays : Stays graph exit area)
  (inside : ∀ id ∈ starts, id ∈ area)

include stays inside

theorem closure_eq :
    graph.closure exit starts = .ok (graph.closureOf exit starts) := by
  obtain ⟨set, isSet, _, _⟩ := closure_spec stays inside
  rw [closureOf, isSet]
  rfl

theorem mem_closureOf_iff (id : Nat) :
    id ∈ graph.closureOf exit starts ↔
      (id ≠ pastExit ∧ graph.readsAt id = true ∧
        graph.Drifts exit starts id) ∨
      (id = pastExit ∧ ∃ other, graph.Drifts exit starts other ∧
        graph.Done exit other) := by
  obtain ⟨set, isSet, _, mem_iff⟩ := closure_spec stays inside
  rw [closureOf, isSet]
  exact mem_iff id

theorem attentive_closureOf :
    graph.Attentive area (graph.closureOf exit starts) where
  ascending := pairwise_closureOf graph exit starts
  mem := by
    intro id member
    rcases (mem_closureOf_iff stays inside id).mp member with
      ⟨isPoint, reads, drifts⟩ | ⟨isMark, _⟩
    · exact ⟨drifts.mem stays inside, Or.inr reads⟩
    · rw [isMark]
      exact ⟨stays.mark_mem, Or.inl rfl⟩

end Closures

/-- The mark stands last: no point of the graph has a larger number. -/
theorem Attentive.getLast?_eq_iff (attentive : graph.Attentive area set)
    (stays : Stays graph exit area) (numbered : graph.size ≤ pastExit + 1) :
    set.getLast? = some pastExit ↔ pastExit ∈ set := by
  constructor
  · exact List.mem_of_getLast?
  · intro member
    have nonempty := List.ne_nil_of_mem member
    have isLast := List.getLast_mem nonempty
    have notAbove : set.getLast nonempty ≤ pastExit := by
      rcases stays.present _ (attentive.mem _ isLast).1 with isMark | present
      · exact Nat.le_of_eq isMark
      · exact Nat.le_of_lt_succ (Nat.lt_of_lt_of_le present numbered)
    have notBelow : pastExit ≤ set.getLast nonempty :=
      (attentive.ascending.imp Nat.le_of_lt).rel_getLast member
    rw [List.getLast?_eq_some_getLast nonempty,
      Nat.le_antisymm notAbove notBelow]

/-- Going on without reading changes no word. -/
theorem wordsFrom_closureOf (within : Within graph exit area)
    (inside : ∀ id ∈ starts, id ∈ area) :
    graph.wordsFrom exit (graph.closureOf exit starts) =
      graph.wordsFrom exit starts := by
  ext word
  rw [mem_wordsFrom_iff, mem_wordsFrom_iff]
  constructor
  · rintro ⟨id, member, runs⟩
    rcases (mem_closureOf_iff within.toStays inside id).mp member with
      ⟨_, _, drifts⟩ | ⟨isMark, other, drifts, done⟩
    · exact drifts.runs within.toStays inside runs
    · subst isMark
      have isEmpty := (within.runs_past_iff word).mp runs
      subst isEmpty
      apply drifts.runs within.toStays inside
      rcases done with isMark | ⟨atExit, silent⟩
      · rw [isMark]
        exact Runs.past
      · subst atExit
        rw [← reading_eq_nil silent]
        by_cases isMark : other = pastExit
        · rw [reading_eq_nil silent, isMark]
          exact Runs.past
        · exact Runs.leave
            (within.lt_size (drifts.mem within.toStays inside) isMark)
  · rintro ⟨start, member, runs⟩
    have drifts : graph.Drifts exit starts start :=
      Search.reachable_start member
    rcases drifts.of_runs within inside runs with
      ⟨other, otherDrifts, reads, otherRuns⟩ |
        ⟨isEmpty, other, otherDrifts, done⟩
    · refine ⟨other, ?_, otherRuns⟩
      obtain ⟨atom, isAtom⟩ := (readsAt_iff graph other).mp reads
      exact (mem_closureOf_iff within.toStays inside other).mpr
        (Or.inl ⟨within.ne_of_atomAt isAtom, reads, otherDrifts⟩)
    · subst isEmpty
      exact ⟨pastExit, (mem_closureOf_iff within.toStays inside pastExit).mpr
        (Or.inr ⟨rfl, other, otherDrifts, done⟩), Runs.past⟩

/-! ## Steps of sets -/

/-- Where walks go on after a name, it is read at a point of the set. -/
theorem Gathers.exists_of_find? {table : AtomMap (List Nat)}
    (gathers : Gathers graph exit set ∅ table) {name : String}
    (found : table.find? name = some starts) {next : Nat}
    (member : next ∈ starts) :
    ∃ id ∈ set, graph.ReadsName id name ∧ next ∈ graph.following exit id := by
  rcases (gathers.mem_iff name next).mp ⟨starts, found, member⟩ with
    ⟨_, impossible, _⟩ | reads
  · cases impossible
  · exact reads

section Steps

variable (stays : Stays graph exit area)

include stays

theorem following_mem {id : Nat} (member : id ∈ area)
    (isPoint : id ≠ pastExit) :
    ∀ next ∈ graph.following exit id, next ∈ area := by
  intro next isNext
  rw [following] at isNext
  by_cases atExit : id = exit
  · rw [if_pos atExit] at isNext
    rw [List.mem_singleton.mp isNext]
    exact stays.mark_mem
  · rw [if_neg atExit] at isNext
    exact stays.closed id member isPoint atExit next isNext

/-- Under each name the table holds where a walk may go on after reading
it. -/
theorem Gathers.starts_mem {table : AtomMap (List Nat)}
    (gathers : Gathers graph exit set ∅ table)
    (attentive : graph.Attentive area set) {name : String}
    (found : table.find? name = some starts) :
    ∀ id ∈ starts, id ∈ area := by
  intro next isNext
  obtain ⟨id, member, reads, isFollowing⟩ :=
    gathers.exists_of_find? found isNext
  exact following_mem stays (attentive.mem id member).1 reads.1 next isFollowing

theorem setStep_eq (attentive : graph.Attentive area set) :
    ∃ table, graph.readingSteps exit set ∅ = .ok table ∧
      graph.setStep exit set =
        .ok (.expand (set.getLast? == some pastExit)
          (table.map (graph.closureOf exit)).entries) ∧
      Gathers graph exit set ∅ table := by
  have present : ∀ id ∈ set, id = pastExit ∨ id < graph.size :=
    fun id member => stays.present id (attentive.mem id member).1
  obtain ⟨table, isTable, gathers⟩ := readingSteps_spec exit present ∅
  have edges : (table.entries.mapM fun entry : Atom × List Nat => do
      return (entry.1, ← graph.closure exit entry.2)) =
      Except.ok (table.map (graph.closureOf exit)).entries := by
    refine mapM_eq_ok_of_forall fun entry member => ?_
    have found : table.find? entry.1.name = some entry.2 :=
      (table.find?_eq_some_iff _ _).mpr ⟨entry.1, member, rfl⟩
    rw [closure_eq stays (gathers.starts_mem stays attentive found)]
    rfl
  refine ⟨table, isTable, ?_, gathers⟩
  rw [setStep, isTable, ok_bind]
  change (do
    let edges ← table.entries.mapM fun entry : Atom × List Nat => do
      return (entry.1, ← graph.closure exit entry.2)
    return SubsetStep.expand (set.getLast? == some pastExit) edges) = _
  rw [edges]
  rfl

theorem setSpec_eq (attentive : graph.Attentive area set) :
    ∃ table, graph.setSpec exit set =
        .expand (set.getLast? == some pastExit)
          (table.map (graph.closureOf exit)).entries ∧
      Gathers graph exit set ∅ table := by
  obtain ⟨table, _, isStep, gathers⟩ := setStep_eq stays attentive
  refine ⟨table, ?_, gathers⟩
  rw [setSpec, isStep]
  rfl

/-- An edge of a set leads to the closure of where walks go on after its
name. -/
theorem exists_of_edge (attentive : graph.Attentive area set)
    {accepting : Bool} {edges : List (Atom × List Nat)}
    (isStep : graph.setSpec exit set = .expand accepting edges)
    {edge : Atom × List Nat} (member : edge ∈ edges) :
    ∃ table next, Gathers graph exit set ∅ table ∧
      table.find? edge.1.name = some next ∧
      edge.2 = graph.closureOf exit next := by
  obtain ⟨table, isTable, gathers⟩ := setSpec_eq stays attentive
  rw [isTable] at isStep
  cases isStep
  obtain ⟨⟨atom, next⟩, isEntry, same⟩ := List.mem_map.mp member
  cases same
  exact ⟨table, next, gathers,
    (table.find?_eq_some_iff _ _).mpr ⟨atom, isEntry, rfl⟩, rfl⟩

/-! ## The keys that are met -/

variable (inside : ∀ id ∈ starts, id ∈ area)

include inside

/-- What holds of the closure of the starts, and of a closure of where a walk
may go on after it has read at a set of which it holds, holds of every set that
is met. -/
theorem met_set {motive : List Nat → Prop}
    (met : Met (graph.setSpec exit) (graph.closureOf exit starts) set)
    (initial : motive (graph.closureOf exit starts))
    (step : ∀ set table name next, graph.Attentive area set → motive set →
      Gathers graph exit set ∅ table → table.find? name = some next →
      motive (graph.closureOf exit next)) :
    graph.Attentive area set ∧ motive set := by
  refine met.invariant
    (motive := fun set => graph.Attentive area set ∧ motive set)
    ⟨attentive_closureOf stays inside, initial⟩ ?_
  rintro set accepting edges ⟨attentive, holds⟩ isStep edge member
  obtain ⟨table, next, gathers, found, isClosure⟩ :=
    exists_of_edge stays attentive isStep member
  rw [isClosure]
  exact ⟨attentive_closureOf stays (gathers.starts_mem stays attentive found),
    step set table edge.1.name next attentive holds gathers found⟩

theorem met_attentive
    (met : Met (graph.setSpec exit) (graph.closureOf exit starts) set) :
    graph.Attentive area set :=
  (met_set stays inside (motive := fun _ => True) met trivial
    fun _ _ _ _ _ _ _ _ => trivial).1

theorem met_isExpand
    (met : Met (graph.setSpec exit) (graph.closureOf exit starts) set) :
    (graph.setSpec exit set).IsExpand := by
  obtain ⟨table, isTable, _⟩ :=
    setSpec_eq stays (met_attentive stays inside met)
  exact ⟨_, _, isTable⟩

end Steps

/-! ## The words of a set -/

section Words

variable (within : Within graph exit area)

include within

/-- What is read at a point comes first. -/
theorem runs_reading_iff {id : Nat} {atom : Atom} (member : id ∈ area)
    (isPoint : id ≠ pastExit) (reads : graph.atomAt id = some atom)
    (word : List String) :
    graph.Runs exit id word ↔
      ∃ rest, word = atom.name :: rest ∧
        rest ∈ graph.wordsFrom exit (graph.following exit id) := by
  have isReading := reading_of_atomAt reads
  rw [following]
  constructor
  · intro runs
    cases runs with
    | past =>
        exact absurd rfl isPoint
    | leave _ =>
        rw [if_pos rfl, isReading]
        exact ⟨[], rfl, pastExit, List.mem_singleton_self _, Runs.past⟩
    | @step _ next rest notExit isNext nextRuns =>
        rw [if_neg notExit, isReading]
        exact ⟨rest, rfl, next, isNext, nextRuns⟩
  · rintro ⟨rest, rfl, next, isNext, nextRuns⟩
    by_cases atExit : id = exit
    · subst atExit
      rw [if_pos rfl] at isNext
      rw [List.mem_singleton.mp isNext, within.runs_past_iff] at nextRuns
      rw [nextRuns, ← isReading]
      exact Runs.leave (within.lt_size member isPoint)
    · rw [if_neg atExit] at isNext
      have runs := Runs.step atExit isNext nextRuns
      rw [isReading] at runs
      exact runs

/-- The name of a point that is read first. -/
theorem cons_mem_wordsFrom_iff (attentive : graph.Attentive area set)
    {table : AtomMap (List Nat)} (gathers : Gathers graph exit set ∅ table)
    (name : String) (word : List String) :
    name :: word ∈ graph.wordsFrom exit set ↔
      ∃ starts, table.find? name = some starts ∧
        word ∈ graph.wordsFrom exit starts := by
  constructor
  · rintro ⟨id, member, runs⟩
    obtain ⟨inArea, isMark | reads⟩ := attentive.mem id member
    · rw [isMark, within.runs_past_iff] at runs
      cases runs
    · obtain ⟨atom, isAtom⟩ := (readsAt_iff graph id).mp reads
      have isPoint := within.ne_of_atomAt isAtom
      obtain ⟨rest, same, next, isFollowing, nextRuns⟩ :=
        (runs_reading_iff within inArea isPoint isAtom _).mp runs
      cases same
      obtain ⟨starts, found, isNext⟩ := (gathers.mem_iff atom.name next).mpr
        (Or.inr ⟨id, member, ⟨isPoint, atom, isAtom, rfl⟩, isFollowing⟩)
      exact ⟨starts, found, next, isNext, nextRuns⟩
  · rintro ⟨starts, found, next, isNext, nextRuns⟩
    obtain ⟨id, member, reads, isFollowing⟩ :=
      gathers.exists_of_find? found isNext
    obtain ⟨isPoint, atom, isAtom, rfl⟩ := reads
    refine ⟨id, member, ?_⟩
    exact (runs_reading_iff within (attentive.mem id member).1 isPoint isAtom
      _).mpr ⟨word, rfl, next, isFollowing, nextRuns⟩

theorem nil_mem_wordsFrom_iff (attentive : graph.Attentive area set) :
    [] ∈ graph.wordsFrom exit set ↔ pastExit ∈ set := by
  constructor
  · rintro ⟨id, member, runs⟩
    obtain ⟨inArea, isMark | reads⟩ := attentive.mem id member
    · rw [← isMark]
      exact member
    · obtain ⟨atom, isAtom⟩ := (readsAt_iff graph id).mp reads
      obtain ⟨rest, impossible, _⟩ := (runs_reading_iff within inArea
        (within.ne_of_atomAt isAtom) isAtom _).mp runs
      cases impossible
  · intro member
    exact ⟨pastExit, member, Runs.past⟩

variable (inside : ∀ id ∈ starts, id ∈ area)

include inside

/-- The words that are read from the sets on follow the steps of the sets. -/
theorem solves_wordsFrom :
    Solves (graph.setSpec exit) (graph.closureOf exit starts)
      (graph.wordsFrom exit) := by
  intro set met name word
  have attentive := met_attentive within.toStays inside met
  obtain ⟨table, isTable, gathers⟩ := setSpec_eq within.toStays attentive
  rw [cons_mem_wordsFrom_iff within attentive gathers, isTable]
  simp only [SubsetStep.advance, lastKey_entries, AtomMap.find?_map,
    Option.map_eq_some_iff]
  constructor
  · rintro ⟨next, found, member⟩
    refine ⟨_, ⟨next, found, rfl⟩, ?_⟩
    rw [wordsFrom_closureOf within
      (gathers.starts_mem within.toStays attentive found)]
    exact member
  · rintro ⟨_, ⟨next, found, rfl⟩, member⟩
    rw [wordsFrom_closureOf within
      (gathers.starts_mem within.toStays attentive found)] at member
    exact ⟨next, found, member⟩

/-- A set accepts where the empty word is read from it on. -/
theorem setSpec_accepting {accepting : Bool}
    {edges : List (Atom × List Nat)}
    (met : Met (graph.setSpec exit) (graph.closureOf exit starts) set)
    (isStep : graph.setSpec exit set = .expand accepting edges) :
    accepting = true ↔ [] ∈ graph.wordsFrom exit set := by
  have attentive := met_attentive within.toStays inside met
  obtain ⟨table, isTable, _⟩ := setSpec_eq within.toStays attentive
  rw [isTable] at isStep
  cases isStep
  rw [nil_mem_wordsFrom_iff within attentive, beq_iff_eq,
    attentive.getLast?_eq_iff within.toStays
      (Nat.le_succ_of_le within.numbered)]

/-- If every point of the area leads to the exit, something is read from every
set that is met. -/
theorem productive_wordsFrom
    (finishes : ∀ id ∈ area, ∃ word, graph.Runs exit id word)
    (nonempty : starts ≠ [])
    (met : Met (graph.setSpec exit) (graph.closureOf exit starts) set) :
    ∃ word, word ∈ graph.wordsFrom exit set := by
  have fromStarts : ∀ next, (∀ id ∈ next, id ∈ area) → next ≠ [] →
      ∃ word, word ∈ graph.wordsFrom exit (graph.closureOf exit next) := by
    intro next nextInside nextNonempty
    obtain ⟨id, member⟩ := List.exists_mem_of_ne_nil next nextNonempty
    obtain ⟨word, runs⟩ := finishes id (nextInside id member)
    rw [wordsFrom_closureOf within nextInside]
    exact ⟨word, id, member, runs⟩
  refine (met_set within.toStays inside
    (motive := fun set => ∃ word, word ∈ graph.wordsFrom exit set) met
    (fromStarts starts inside nonempty) ?_).2
  intro set table name next attentive _ gathers found
  apply fromStarts next (gathers.starts_mem within.toStays attentive found)
  rcases (gathers.listed_iff name).mp ⟨next, found⟩ with
    ⟨_, impossible⟩ | ⟨id, member, reads⟩
  · cases impossible
  · obtain ⟨isPoint, atom, isAtom, rfl⟩ := reads
    have inArea := (attentive.mem id member).1
    obtain ⟨word, runs⟩ := finishes id inArea
    obtain ⟨_, _, target, isFollowing, _⟩ :=
      (runs_reading_iff within inArea isPoint isAtom word).mp runs
    obtain ⟨listed, isListed, isTarget⟩ :=
      (gathers.mem_iff atom.name target).mpr
        (Or.inr ⟨id, member, ⟨isPoint, atom, isAtom, rfl⟩, isFollowing⟩)
    rw [found] at isListed
    cases isListed
    exact List.ne_nil_of_mem isTarget

end Words

/-- From the entry of a region on the words of the fragment are read. -/
theorem Region.wordsFrom_entry {thorough : Prop} {fragment : Fragment}
    {region : Set Nat} (whole : Region thorough graph fragment region)
    (numbered : graph.size ≤ pastExit) :
    graph.wordsFrom fragment.exit [fragment.entry] =
      graph.language fragment := by
  ext word
  rw [mem_wordsFrom_iff]
  simp only [List.mem_singleton, exists_eq_left]
  exact whole.runs_iff numbered whole.entry_mem word

end FragmentGraph

/-! ## Compilation -/

namespace Automaton.Store

open FragmentGraph

/-- A compilation comes to an end: with the nodes of the sets that are met, or
without any node of its own if the store does not allow so many. -/
theorem compile_outcome {base : Store} (sound : base.Sound)
    {graph : FragmentGraph} {fragment : Fragment} {area : Set Nat}
    (stays : Stays graph fragment.exit area)
    (member : fragment.entry ∈ area) :
    (∃ (keys : List (List Nat)) (nodeOf : List Nat → Nat) (after : Store),
      base.compile graph fragment =
        .ok (.ok (nodeOf (graph.closureOf fragment.exit [fragment.entry])),
          after) ∧
      keys.length ≤ base.stateLimit ∧
      Built base (graph.setSpec fragment.exit)
        (graph.closureOf fragment.exit [fragment.entry]) keys nodeOf after) ∨
    (∃ (keys : List (List Nat)) (after : Store),
      base.compile graph fragment =
        .ok (.error ⟨base.stateLimit⟩, after) ∧
      base.stateLimit < keys.length ∧ keys.Nodup ∧
      (∀ key ∈ keys,
        Met (graph.setSpec fragment.exit)
          (graph.closureOf fragment.exit [fragment.entry]) key ∧
        (graph.setSpec fragment.exit key).IsExpand) ∧
      Grown base [] after) := by
  have inside : ∀ id ∈ [fragment.entry], id ∈ area := by
    intro id isEntry
    rw [List.mem_singleton.mp isEntry]
    exact member
  rw [compile, closure_eq stays inside, ok_bind]
  apply determinize_outcome sound
  intro store _ key met
  obtain ⟨table, _, isStep, _⟩ :=
    setStep_eq stays (met_attentive stays inside met)
  rw [setSpec, isStep]
  rfl

end Automaton.Store

end ContentModel
