import ContentModel.Proofs.Automaton.StateSets
import Mathlib.Logic.Relator

/-!
# Fragments that look alike to a walk

The points of two fragments are paired: a walk reads the same at both of a pair
and goes on from them to points that are paired again. Then the sets of points
that are met are paired too, and the automata have equally many nodes
(`Twins.stateCount_eq`).
-/

namespace ContentModel

open Automaton

/-- Each point of one list is paired with some point of the other. -/
def Matched (pairs : Nat → Nat → Prop) (left right : List Nat) : Prop :=
  (∀ id ∈ left, ∃ twin ∈ right, pairs id twin) ∧
    ∀ twin ∈ right, ∃ id ∈ left, pairs id twin

namespace Matched

variable {pairs : Nat → Nat → Prop} {left right : List Nat}

theorem symm (matched : Matched pairs left right) :
    Matched (flip pairs) right left :=
  ⟨matched.2, matched.1⟩

theorem inside (matched : Matched pairs left right) :
    ∀ id ∈ left, id ∈ { id | ∃ twin, pairs id twin } := by
  intro id member
  obtain ⟨twin, _, paired⟩ := matched.1 id member
  exact ⟨twin, paired⟩

theorem singleton {id twin : Nat} (paired : pairs id twin) :
    Matched pairs [id] [twin] := by
  constructor
  · intro other member
    rw [List.mem_singleton.mp member]
    exact ⟨twin, List.mem_singleton_self twin, paired⟩
  · intro other member
    rw [List.mem_singleton.mp member]
    exact ⟨id, List.mem_singleton_self id, paired⟩

/-- If a point is paired with one other only, a list has the same members as
any other list that is matched with the same one. -/
theorem mem_iff {other : List Nat} (unique : Relator.LeftUnique pairs)
    (matched : Matched pairs left right)
    (otherMatched : Matched pairs other right) (id : Nat) :
    id ∈ left ↔ id ∈ other := by
  constructor
  · intro member
    obtain ⟨twin, isTwin, paired⟩ := matched.1 id member
    obtain ⟨same, isOther, otherPaired⟩ := otherMatched.2 twin isTwin
    rw [unique paired otherPaired]
    exact isOther
  · intro member
    obtain ⟨twin, isTwin, paired⟩ := otherMatched.1 id member
    obtain ⟨same, isLeft, otherPaired⟩ := matched.2 twin isTwin
    rw [unique paired otherPaired]
    exact isLeft

end Matched

namespace FragmentGraph

/-- The points of two graphs are paired as far as walks come that go on before
the exits, and the mark is paired with the mark. -/
structure Twins (left : FragmentGraph) (leftExit : Nat)
    (right : FragmentGraph) (rightExit : Nat) (pairs : Nat → Nat → Prop) :
    Prop where
  mark : pairs pastExit pastExit
  leftUnique : Relator.LeftUnique pairs
  rightUnique : Relator.RightUnique pairs
  exit_iff : ∀ id twin, pairs id twin → (id = leftExit ↔ twin = rightExit)
  atomAt : ∀ id twin, pairs id twin → left.atomAt id = right.atomAt twin
  leads : ∀ id twin, pairs id twin → id ≠ pastExit → id ≠ leftExit →
    Matched pairs (left.successors id) (right.successors twin)
  leftPresent : ∀ id twin, pairs id twin → id = pastExit ∨ id < left.size
  rightPresent : ∀ id twin, pairs id twin →
    twin = pastExit ∨ twin < right.size
  leftNumbered : left.size ≤ pastExit
  rightNumbered : right.size ≤ pastExit

namespace Twins

variable {left right : FragmentGraph} {leftExit rightExit : Nat}
  {pairs : Nat → Nat → Prop}
  (twins : Twins left leftExit right rightExit pairs)

include twins

theorem mark_iff {id twin : Nat} (paired : pairs id twin) :
    id = pastExit ↔ twin = pastExit := by
  constructor
  · intro isMark
    rw [isMark] at paired
    exact twins.rightUnique paired twins.mark
  · intro isMark
    rw [isMark] at paired
    exact twins.leftUnique paired twins.mark

theorem symm : Twins right rightExit left leftExit (flip pairs) where
  mark := twins.mark
  leftUnique _ _ _ first second := twins.rightUnique first second
  rightUnique _ _ _ first second := twins.leftUnique first second
  exit_iff id twin paired := (twins.exit_iff twin id paired).symm
  atomAt id twin paired := (twins.atomAt twin id paired).symm
  leads id twin paired isPoint notExit :=
    (twins.leads twin id paired
      (fun isMark => isPoint ((twins.mark_iff paired).mp isMark))
      (fun atExit => notExit ((twins.exit_iff twin id paired).mp atExit))).symm
  leftPresent id twin paired := twins.rightPresent twin id paired
  rightPresent id twin paired := twins.leftPresent twin id paired
  leftNumbered := twins.rightNumbered
  rightNumbered := twins.leftNumbered

/-- Walks stay at the points that are paired. -/
theorem within : Within left leftExit { id | ∃ twin, pairs id twin } where
  mark_mem := ⟨pastExit, twins.mark⟩
  present := by
    intro id member
    obtain ⟨twin, paired⟩ := member
    exact twins.leftPresent id twin paired
  closed := by
    intro id member isPoint notExit next isNext
    obtain ⟨twin, paired⟩ := member
    obtain ⟨nextTwin, _, nextPaired⟩ :=
      (twins.leads id twin paired isPoint notExit).1 next isNext
    exact ⟨nextTwin, nextPaired⟩
  numbered := twins.leftNumbered

theorem readsAt_eq {id twin : Nat} (paired : pairs id twin) :
    left.readsAt id = right.readsAt twin := by
  rw [Bool.eq_iff_iff, readsAt_iff, readsAt_iff, twins.atomAt id twin paired]

/-! ## Closures -/

section Closures

variable {starts twinStarts : List Nat}
  (matched : Matched pairs starts twinStarts)

include matched

/-- What is drifted to on one side has a twin that is drifted to on the other
side. -/
theorem exists_drifts {id : Nat} (drifts : left.Drifts leftExit starts id) :
    ∃ twin, right.Drifts rightExit twinStarts twin ∧ pairs id twin := by
  refine Search.Reachable.invariant
    (motive := fun id => ∃ twin,
      right.Drifts rightExit twinStarts twin ∧ pairs id twin) drifts ?_ ?_
  · intro start member
    obtain ⟨twin, isTwin, paired⟩ := matched.1 start member
    exact ⟨twin, Search.reachable_start isTwin, paired⟩
  · intro id found holds answer next isNext
    obtain ⟨twin, twinDrifts, paired⟩ := holds
    rw [silentSteps_eq twins.within.toStays ⟨twin, paired⟩] at answer
    cases answer
    split at isNext
    · exact absurd isNext List.not_mem_nil
    · rename_i goesOn
      have isPoint : id ≠ pastExit := fun isMark => goesOn (Or.inl isMark)
      have notExit : id ≠ leftExit :=
        fun atExit => goesOn (Or.inr (Or.inl atExit))
      have twinAnswer :=
        silentSteps_eq twins.symm.within.toStays ⟨id, paired⟩
      rw [if_neg (by rwa [← twins.mark_iff paired,
        ← twins.exit_iff id twin paired, ← twins.readsAt_eq paired])]
        at twinAnswer
      obtain ⟨nextTwin, isTwin, nextPaired⟩ :=
        (twins.leads id twin paired isPoint notExit).1 next isNext
      exact ⟨nextTwin, Search.Reachable.next twinDrifts twinAnswer isTwin,
        nextPaired⟩

private theorem exists_mem_closureOf {id : Nat}
    (member : id ∈ left.closureOf leftExit starts) :
    ∃ twin ∈ right.closureOf rightExit twinStarts, pairs id twin := by
  have mem_iff :=
    mem_closureOf_iff twins.symm.within.toStays matched.symm.inside
  rcases (mem_closureOf_iff twins.within.toStays
    matched.inside id).mp member with
    ⟨isPoint, reads, drifts⟩ | ⟨isMark, other, drifts, done⟩
  · obtain ⟨twin, twinDrifts, paired⟩ := twins.exists_drifts matched drifts
    refine ⟨twin, (mem_iff twin).mpr (Or.inl ⟨?_, ?_, twinDrifts⟩), paired⟩
    · exact fun isMark => isPoint ((twins.mark_iff paired).mpr isMark)
    · rw [← twins.readsAt_eq paired]
      exact reads
  · obtain ⟨twin, twinDrifts, paired⟩ := twins.exists_drifts matched drifts
    rw [isMark]
    refine ⟨pastExit, (mem_iff pastExit).mpr
      (Or.inr ⟨rfl, twin, twinDrifts, ?_⟩), twins.mark⟩
    rw [Done, ← twins.mark_iff paired, ← twins.exit_iff other twin paired,
      ← twins.readsAt_eq paired]
    exact done

theorem matched_closureOf :
    Matched pairs (left.closureOf leftExit starts)
      (right.closureOf rightExit twinStarts) :=
  ⟨fun _ member => twins.exists_mem_closureOf matched member,
    fun _ member => twins.symm.exists_mem_closureOf matched.symm member⟩

end Closures

/-! ## Steps of sets -/

section Steps

variable {set twinSet : List Nat} (matched : Matched pairs set twinSet)
  {table twinTable : AtomMap (List Nat)}
  (gathers : Gathers left leftExit set ∅ table)
  (twinGathers : Gathers right rightExit twinSet ∅ twinTable)

theorem readsName {id twin : Nat} (paired : pairs id twin) {name : String}
    (reads : left.ReadsName id name) : right.ReadsName twin name := by
  obtain ⟨isPoint, atom, isAtom, isName⟩ := reads
  refine ⟨fun isMark => isPoint ((twins.mark_iff paired).mpr isMark), atom,
    ?_, isName⟩
  rw [← twins.atomAt id twin paired]
  exact isAtom

theorem matched_following {id twin : Nat} (paired : pairs id twin)
    (isPoint : id ≠ pastExit) :
    Matched pairs (left.following leftExit id)
      (right.following rightExit twin) := by
  rw [following, following]
  by_cases atExit : id = leftExit
  · rw [if_pos atExit, if_pos ((twins.exit_iff id twin paired).mp atExit)]
    exact Matched.singleton twins.mark
  · rw [if_neg atExit,
      if_neg fun same => atExit ((twins.exit_iff id twin paired).mpr same)]
    exact twins.leads id twin paired isPoint atExit

include matched gathers twinGathers

private theorem exists_mem_next {name : String} {next twinNext : List Nat}
    (found : table.find? name = some next)
    (twinFound : twinTable.find? name = some twinNext) {other : Nat}
    (member : other ∈ next) : ∃ twin ∈ twinNext, pairs other twin := by
  obtain ⟨id, inSet, reads, isFollowing⟩ :=
    gathers.exists_of_find? found member
  obtain ⟨twin, inTwinSet, paired⟩ := matched.1 id inSet
  obtain ⟨otherTwin, isTwin, otherPaired⟩ :=
    (twins.matched_following paired reads.1).1 other isFollowing
  obtain ⟨listed, isListed, isMember⟩ :=
    (twinGathers.mem_iff name otherTwin).mpr
      (Or.inr ⟨twin, inTwinSet, twins.readsName paired reads, isTwin⟩)
  rw [twinFound] at isListed
  cases isListed
  exact ⟨otherTwin, isMember, otherPaired⟩

/-- The same names are read at both of two sets, and where walks go on after
that is paired. -/
theorem exists_next {name : String} {next : List Nat}
    (found : table.find? name = some next) :
    ∃ twinNext, twinTable.find? name = some twinNext ∧
      Matched pairs next twinNext := by
  have listed : ∃ twinNext, twinTable.find? name = some twinNext := by
    rcases (gathers.listed_iff name).mp ⟨next, found⟩ with
      ⟨_, impossible⟩ | ⟨id, inSet, reads⟩
    · cases impossible
    · obtain ⟨twin, inTwinSet, paired⟩ := matched.1 id inSet
      exact (twinGathers.listed_iff name).mpr
        (Or.inr ⟨twin, inTwinSet, twins.readsName paired reads⟩)
  obtain ⟨twinNext, twinFound⟩ := listed
  refine ⟨twinNext, twinFound, ?_, ?_⟩
  · intro other member
    exact twins.exists_mem_next matched gathers twinGathers found twinFound
      member
  · intro other member
    exact twins.symm.exists_mem_next matched.symm twinGathers gathers
      twinFound found member

end Steps

end Twins

/-! ## The sets that are met -/

section States

variable {left right : FragmentGraph} {first second : Fragment}
  {pairs : Nat → Nat → Prop}
  (twins : Twins left first.exit right second.exit pairs)
  (entries : pairs first.entry second.entry)

include twins entries

theorem Twins.exists_stateSet {set : List Nat}
    (isState : set ∈ left.stateSets first) :
    ∃ twinSet ∈ right.stateSets second, Matched pairs set twinSet := by
  have matched := Matched.singleton entries
  have stays := twins.within.toStays
  have twinStays := twins.symm.within.toStays
  have twinInside := matched.symm.inside
  refine (met_set stays matched.inside
    (motive := fun set =>
      ∃ twinSet ∈ right.stateSets second, Matched pairs set twinSet)
    isState ?_ ?_).2
  · exact ⟨_, met_start _ _, twins.matched_closureOf matched⟩
  · intro set table name next attentive holds gathers found
    obtain ⟨twinSet, met, setMatched⟩ := holds
    obtain ⟨twinTable, isStep, twinGathers⟩ :=
      setSpec_eq twinStays (met_attentive twinStays twinInside met)
    obtain ⟨twinNext, twinFound, nextMatched⟩ :=
      twins.exists_next setMatched gathers twinGathers found
    refine ⟨right.closureOf second.exit twinNext, ?_,
      twins.matched_closureOf nextMatched⟩
    have listed : (twinTable.map (right.closureOf second.exit)).find? name =
        some (right.closureOf second.exit twinNext) := by
      rw [AtomMap.find?_map, twinFound]
      rfl
    obtain ⟨atom, isEdge, _⟩ :=
      (AtomMap.find?_eq_some_iff _ _ _).mp listed
    exact Met.next met isStep isEdge

/-- A set is known by the one that it is matched with. -/
private theorem Twins.stateCount_le :
    left.stateCount first ≤ right.stateCount second := by
  have leftEntry : first.entry ∈ { id | ∃ twin, pairs id twin } :=
    ⟨second.entry, entries⟩
  have rightEntry : second.entry ∈ { id | ∃ twin, flip pairs id twin } :=
    ⟨first.entry, entries⟩
  -- Every list is given some other, so that the choice is a function.
  have chosen : ∀ set : List Nat, ∃ twinSet, set ∈ left.stateSets first →
      twinSet ∈ right.stateSets second ∧ Matched pairs set twinSet := by
    intro set
    by_cases isState : set ∈ left.stateSets first
    · obtain ⟨twinSet, isTwin, matched⟩ :=
        twins.exists_stateSet entries isState
      exact ⟨twinSet, fun _ => ⟨isTwin, matched⟩⟩
    · exact ⟨[], fun impossible => absurd impossible isState⟩
  choose twinOf isTwin using chosen
  refine Set.ncard_le_ncard_of_injOn twinOf
    (fun set isState => (isTwin set isState).1) ?_
    (finite_stateSets twins.symm.within rightEntry)
  intro set isState other isOther same
  have matched := (isTwin set isState).2
  rw [same] at matched
  exact (stateSets_ascending twins.within leftEntry isState).1.eq_of_mem_iff
    (stateSets_ascending twins.within leftEntry isOther).1
    (matched.mem_iff twins.leftUnique (isTwin other isOther).2)

theorem Twins.stateCount_eq :
    left.stateCount first = right.stateCount second :=
  Nat.le_antisymm (twins.stateCount_le entries)
    (twins.symm.stateCount_le entries)

end States

end FragmentGraph

end ContentModel
