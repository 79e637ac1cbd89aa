import ContentModel.Proofs.Automaton.History
import ContentModel.Proofs.Automaton.StateSets

/-!
# Fragments that begin again

If a walk through a fragment is back at the entry after whatever it has read,
all that is met is the set of points at which a walk reads first. Main
statement: `compile_loops`, such a fragment is compiled to a single node, all
names of which lead back to it.
-/

namespace ContentModel

open Automaton

namespace FragmentGraph

variable {graph : FragmentGraph} {area : Set Nat}

/-! ## Sets of the same points -/

section Closures

variable {exit : Nat} {starts others : List Nat}

/-- A set depends on the points at which a walk reads or is done. -/
theorem closureOf_congr (stays : Stays graph exit area)
    (inside : ∀ id ∈ starts, id ∈ area) (othersInside : ∀ id ∈ others, id ∈ area)
    (same : ∀ id, graph.readsAt id = true ∨ graph.Done exit id →
      (graph.Drifts exit starts id ↔ graph.Drifts exit others id)) :
    graph.closureOf exit starts = graph.closureOf exit others := by
  refine (pairwise_closureOf graph exit starts).eq_of_mem_iff
    (pairwise_closureOf graph exit others) fun id => ?_
  rw [mem_closureOf_iff stays inside, mem_closureOf_iff stays othersInside]
  refine or_congr ?_ ?_
  · refine and_congr_right fun _ => and_congr_right fun reads => ?_
    exact same id (Or.inl reads)
  · refine and_congr_right fun _ => exists_congr fun other => ?_
    exact and_congr_left fun done => same other (Or.inr done)

/-- A walk drifts on from a point at which nothing is read before the exit. -/
theorem Drifts.next (stays : Stays graph exit area)
    (inside : ∀ id ∈ starts, id ∈ area) {id next : Nat}
    (drifts : graph.Drifts exit starts id) (isPoint : id ≠ pastExit)
    (notExit : id ≠ exit) (silent : graph.readsAt id = false)
    (isNext : next ∈ graph.successors id) : graph.Drifts exit starts next := by
  have answer := silentSteps_eq stays (drifts.mem stays inside)
  rw [if_neg (by simp [isPoint, notExit, silent])] at answer
  exact Search.Reachable.next drifts answer isNext

end Closures

/-! ## Back to the entry -/

variable {fragment : Fragment} {names : List String}

/-- The point is the entry, or a point that leads there and at which a walk
neither reads nor is done. -/
def Returns (graph : FragmentGraph) (fragment : Fragment) (id : Nat) : Prop :=
  id = fragment.entry ∨
    (id ≠ pastExit ∧ id ≠ fragment.exit ∧ graph.readsAt id = false ∧
      graph.successors id = [fragment.entry])

/-- Points from which a walk returns stand for what the entry stands for. -/
theorem closureOf_of_returns (stays : Stays graph fragment.exit area)
    (member : fragment.entry ∈ area) {starts : List Nat}
    (inside : ∀ id ∈ starts, id ∈ area) (nonempty : starts ≠ [])
    (returns : ∀ id ∈ starts, graph.Returns fragment id) :
    graph.closureOf fragment.exit starts =
      graph.closureOf fragment.exit [fragment.entry] := by
  have entryInside : ∀ id ∈ [fragment.entry], id ∈ area :=
    List.forall_mem_singleton.mpr member
  apply closureOf_congr stays inside entryInside
  intro id counts
  constructor
  · intro drifts
    have either : graph.Drifts fragment.exit starts id ∧
        (graph.Drifts fragment.exit [fragment.entry] id ∨
          graph.Returns fragment id) := by
      refine drifts.invariant
        (motive := fun id => graph.Drifts fragment.exit starts id ∧
          (graph.Drifts fragment.exit [fragment.entry] id ∨
            graph.Returns fragment id)) ?_ ?_
      · intro start isStart
        exact ⟨Search.reachable_start isStart,
          Or.inr (returns start isStart)⟩
      · intro key found holds answer next isNext
        refine ⟨Search.Reachable.next holds.1 answer isNext, Or.inl ?_⟩
        rcases holds.2 with keyDrifts | isEntry | ⟨_, _, _, leads⟩
        · exact Search.Reachable.next keyDrifts answer isNext
        · have keyDrifts : graph.Drifts fragment.exit [fragment.entry] key :=
            Search.reachable_start (List.mem_singleton.mpr isEntry)
          exact Search.Reachable.next keyDrifts answer isNext
        · rw [silentSteps_eq stays (Drifts.mem stays inside holds.1), leads]
            at answer
          cases answer
          split at isNext
          · exact absurd isNext List.not_mem_nil
          · exact Search.reachable_start isNext
    rcases either.2 with entryDrifts | isEntry | ⟨isPoint, notExit, silent, _⟩
    · exact entryDrifts
    · exact Search.reachable_start (List.mem_singleton.mpr isEntry)
    · exfalso
      rcases counts with reads | isMark | atExit
      · rw [silent] at reads
        cases reads
      · exact isPoint isMark
      · exact notExit atExit.1
  · intro drifts
    obtain ⟨start, isStart⟩ := List.exists_mem_of_ne_nil starts nonempty
    have startDrifts : graph.Drifts fragment.exit starts start :=
      Search.reachable_start isStart
    have entryDrifts :
        graph.Drifts fragment.exit starts fragment.entry := by
      rcases returns start isStart with isEntry | ⟨isPoint, notExit, silent, leads⟩
      · exact isEntry ▸ startDrifts
      · apply startDrifts.next stays inside isPoint notExit silent
        rw [leads]
        exact List.mem_singleton_self _
    refine drifts.invariant
      (motive := fun id => graph.Drifts fragment.exit starts id) ?_ ?_
    · intro other isEntry
      rw [List.mem_singleton.mp isEntry]
      exact entryDrifts
    · intro key found holds answer next isNext
      exact Search.Reachable.next holds answer isNext

/-- A walk may be done at once, reads one of the names or nothing, and is back
at the entry after a name. -/
structure Loops (graph : FragmentGraph) (fragment : Fragment)
    (names : List String) : Prop where
  done : ∃ id, graph.Drifts fragment.exit [fragment.entry] id ∧
    graph.Done fragment.exit id
  reads_iff : ∀ name, name ∈ names ↔
    ∃ id, graph.Drifts fragment.exit [fragment.entry] id ∧
      graph.ReadsName id name
  returns : ∀ id name, graph.ReadsName id name →
    graph.following fragment.exit id ≠ [] ∧
    ∀ next ∈ graph.following fragment.exit id, graph.Returns fragment next

section Looping

variable (stays : Stays graph fragment.exit area)
  (member : fragment.entry ∈ area) (loops : graph.Loops fragment names)

include stays member loops

theorem Loops.pastExit_mem :
    pastExit ∈ graph.closureOf fragment.exit [fragment.entry] :=
  (mem_closureOf_iff stays (List.forall_mem_singleton.mpr member) _).mpr
    (Or.inr ⟨rfl, loops.done⟩)

/-- Whatever is read leads back to the first set. -/
theorem Loops.closureOf_gathered {set starts : List Nat}
    {table : AtomMap (List Nat)} {name : String}
    (attentive : graph.Attentive area set)
    (gathers : Gathers graph fragment.exit set ∅ table)
    (found : table.find? name = some starts) :
    graph.closureOf fragment.exit starts =
      graph.closureOf fragment.exit [fragment.entry] := by
  apply closureOf_of_returns stays member
    (gathers.starts_mem stays attentive found)
  · rcases (gathers.listed_iff name).mp ⟨starts, found⟩ with
      ⟨_, impossible⟩ | ⟨id, isPoint, reads⟩
    · cases impossible
    · obtain ⟨next, isNext⟩ := List.exists_mem_of_ne_nil _
        (loops.returns id name reads).1
      obtain ⟨others, isOthers, isMember⟩ := (gathers.mem_iff name next).mpr
        (Or.inr ⟨id, isPoint, reads, isNext⟩)
      rw [found] at isOthers
      cases isOthers
      exact List.ne_nil_of_mem isMember
  · intro next isNext
    obtain ⟨id, _, reads, isFollowing⟩ :=
      gathers.exists_of_find? found isNext
    exact (loops.returns id name reads).2 next isFollowing

/-- No set is met but the first one. -/
theorem Loops.eq_of_met {set : List Nat}
    (met : Met (graph.setSpec fragment.exit)
      (graph.closureOf fragment.exit [fragment.entry]) set) :
    set = graph.closureOf fragment.exit [fragment.entry] :=
  (met_set stays (List.forall_mem_singleton.mpr member)
    (motive := fun set =>
      set = graph.closureOf fragment.exit [fragment.entry]) met rfl
    fun _ _ _ _ attentive _ gathers found =>
      loops.closureOf_gathered stays member attentive gathers found).2

/-- The step of the first set: every name leads back to it. -/
theorem Loops.exists_setSpec (numbered : graph.size ≤ pastExit + 1) :
    ∃ edges, graph.setSpec fragment.exit
        (graph.closureOf fragment.exit [fragment.entry]) =
        .expand true edges ∧
      ∀ name, lastKey edges name =
        if name ∈ names then
          some (graph.closureOf fragment.exit [fragment.entry])
        else none := by
  have inside : ∀ id ∈ [fragment.entry], id ∈ area :=
    List.forall_mem_singleton.mpr member
  have attentive := attentive_closureOf stays inside
  obtain ⟨table, isTable, gathers⟩ := setSpec_eq stays attentive
  have marked := (attentive.getLast?_eq_iff stays numbered).mpr
    (loops.pastExit_mem stays member)
  rw [marked, beq_self_eq_true] at isTable
  refine ⟨_, isTable, ?_⟩
  intro name
  have isListed : name ∈ names ↔ ∃ starts, table.find? name = some starts := by
    rw [gathers.listed_iff, loops.reads_iff]
    constructor
    · intro reads
      obtain ⟨id, drifts, readsName⟩ := reads
      obtain ⟨isPoint, atom, isAtom, isName⟩ := readsName
      refine Or.inr ⟨id, ?_, isPoint, atom, isAtom, isName⟩
      exact (mem_closureOf_iff stays inside id).mpr
        (Or.inl ⟨isPoint, (readsAt_iff graph id).mpr ⟨atom, isAtom⟩, drifts⟩)
    · intro either
      rcases either with ⟨_, impossible⟩ | ⟨id, isMember, reads⟩
      · cases impossible
      · rcases (mem_closureOf_iff stays inside id).mp isMember with
          ⟨_, _, drifts⟩ | ⟨isMark, _⟩
        · exact ⟨id, drifts, reads⟩
        · exact absurd isMark reads.1
  rw [lastKey_entries, AtomMap.find?_map]
  by_cases listed : name ∈ names
  · obtain ⟨starts, found⟩ := isListed.mp listed
    rw [if_pos listed, found, Option.map_some,
      loops.closureOf_gathered stays member attentive gathers found]
  · rw [if_neg listed]
    cases found : table.find? name with
    | none =>
        rfl
    | some starts =>
        exact absurd (isListed.mpr ⟨starts, found⟩) listed

end Looping

end FragmentGraph

namespace Automaton.Store

open FragmentGraph

variable {base : Store}

/-- A single node is made, which accepts and has all the names, and they lead
back to it. -/
theorem compile_loops (sound : base.Sound) (allowed : 1 ≤ base.stateLimit)
    {graph : FragmentGraph} {fragment : Fragment} {area : Set Nat}
    {names : List String} (stays : Stays graph fragment.exit area)
    (member : fragment.entry ∈ area) (loops : graph.Loops fragment names)
    (numbered : graph.size ≤ pastExit + 1) :
    ∃ start after, base.compile graph fragment = .ok (.ok start, after) ∧
      base.Grown [start] after ∧
      ∃ node, after.node start = .ok node ∧ node.accepting = true ∧
        node.role = .ordinary ∧
        ∀ name, node.transitions.find? name =
          if name ∈ names then some start else none := by
  have inside : ∀ id ∈ [fragment.entry], id ∈ area :=
    List.forall_mem_singleton.mpr member
  have isMet := met_start (graph.setSpec fragment.exit)
    (graph.closureOf fragment.exit [fragment.entry])
  have onlyKey : ∀ key, Met (graph.setSpec fragment.exit)
      (graph.closureOf fragment.exit [fragment.entry]) key →
      key = graph.closureOf fragment.exit [fragment.entry] :=
    fun _ => loops.eq_of_met stays member
  cases compile_outcome sound stays member with
  | inl succeeds =>
      obtain ⟨keys, nodeOf, after, result, _, built⟩ := succeeds
      have isKeys : keys =
          [graph.closureOf fragment.exit [fragment.entry]] := by
        apply List.perm_singleton.mp
        apply (List.perm_ext_iff_of_nodup built.keysNodup
          (List.nodup_singleton _)).mpr
        intro key
        rw [built.mem_keys_iff, List.mem_singleton]
        constructor
        · exact fun isKey => onlyKey key isKey.1
        · intro same
          rw [same]
          exact ⟨isMet, met_isExpand stays inside isMet⟩
      have grown := built.grown
      rw [isKeys, List.map_singleton] at grown
      obtain ⟨edges, isStep, leads⟩ :=
        loops.exists_setSpec stays member numbered
      obtain ⟨node, found, accepting, ordinary, table⟩ :=
        built.expand _ true edges isMet isStep
      refine ⟨_, after, result, grown, node, found, accepting, ordinary, ?_⟩
      intro name
      rw [table, leads]
      split
      · rfl
      · rfl
  | inr givesUp =>
      obtain ⟨keys, _, _, exceeds, nodup, met, _⟩ := givesUp
      exfalso
      have within :
          keys ⊆ [graph.closureOf fragment.exit [fragment.entry]] :=
        fun key member =>
          List.mem_singleton.mpr (onlyKey key (met key member).1)
      have few := (nodup.subperm within).length_le
      rw [List.length_singleton] at few
      omega

end Automaton.Store

end ContentModel
